import Mathlib.Data.List.DropRight
import Mathlib.Data.Option.Basic
import Trun.Program.Disk
import Trun.Program.Runs

/-!
# Files that are written atomically

`atomic_file` and `temporary_path` write to a file of another name, and rename it to the path of
the target at the end.  Many writers and readers share the disk, and what each of them does may
come between any two steps of the others; a process may also end at any point.
-/

namespace Trun.Target

abbrev Path := List Char

/-- `'%0*d' % (width, number)`. -/
def zeroPadded (width number : ℕ) : List Char :=
  List.replicate (width - (Nat.toDigits 10 number).length) '0' ++ Nat.toDigits 10 number

def tmpMark : List Char := ['-', 't', 'r', 'u', 'n', '-', 't', 'm', 'p', '-']

def generateTmpPath (path : Path) (number : ℕ) : Path :=
  path ++ tmpMark ++ zeroPadded 9 number

/-- `path.rstrip('/').rstrip("\\")`. -/
def slashlessPath (path : Path) : Path := (path.rdropWhile (· = '/')).rdropWhile (· = '\\')

def trailingSlash (path : Path) : List Char :=
  match path.getLast? with
  | some c => if c = '\\' ∨ c = '/' then [c] else []
  | none => []

/-- The name that `temporary_path` yields. -/
def temporaryPath (path : Path) (number : ℕ) : Path :=
  slashlessPath path ++ tmpMark ++ zeroPadded 10 number ++ trailingSlash path

/-- A file to be written: where it belongs, and the random number that was drawn for it. -/
structure Job where
  path : Path
  number : ℕ
  /-- Written under `temporary_path` by a command, not through `atomic_file`. -/
  byCommand : Bool
  deriving DecidableEq

def Job.tmpPath (job : Job) : Path :=
  if job.byCommand then temporaryPath job.path job.number
  else generateTmpPath job.path job.number

/-- The number, with the path up to the slashes that `temporary_path` cuts off. -/
def Job.drawn (job : Job) : Path × ℕ := (slashlessPath job.path, job.number)

/-- An open file: its number, the position in it, and what has not been written out yet. -/
structure Handle where
  file : ℕ
  offset : ℕ
  buffer : List UInt8

/-- How far a writer has come. -/
inductive Stage where
  | absent
  /-- In the block of `temporary_path`, before the command has made the file. -/
  | entered (job : Job)
  | writing (job : Job) (handle : Handle)
  /-- `super().close()` has returned, or the block is over and the target was not there. -/
  | flushed (job : Job)
  /-- Renamed; the object of an `atomic_file` has not been collected. -/
  | moved (job : Job)
  | ended

def Stage.job : Stage → Option Job
  | .entered job | .writing job _ | .flushed job | .moved job => some job
  | .absent | .ended => none

/-- An open target, and what has been read from it so far. -/
structure Reading where
  file : ℕ
  got : List UInt8
  deriving DecidableEq

structure State where
  disk : Disk Path
  writer : ℕ → Stage
  reader : ℕ → Option Reading

inductive Event where
  /-- `atomic_file(path)`, with the number that it draws. -/
  | opens (writer : ℕ) (path : Path) (number : ℕ)
  /-- `temporary_path` is entered. -/
  | enters (writer : ℕ) (path : Path) (number : ℕ)
  /-- The command makes the file under the temporary path. -/
  | creates (writer : ℕ)
  | writes (writer : ℕ) (data : List UInt8)
  /-- The first bytes of the buffer go to the file. -/
  | spills (writer : ℕ) (count : ℕ)
  /-- `super().close()`; or the block ends and `move` looks for the target. -/
  | finishes (writer : ℕ)
  /-- `move_to_final_destination`, or the renaming in `move`. -/
  | moves (writer : ℕ)
  /-- An exception leaves the block, or the object is collected. -/
  | drops (writer : ℕ)
  /-- The process of the writer ends. -/
  | dies (writer : ℕ)
  | removes (path : Path)
  | openRead (reader : ℕ) (path : Path)
  | reads (reader : ℕ) (count : ℕ)
  deriving DecidableEq

namespace State

def initial (disk : Disk Path) : State where
  disk := disk
  writer := fun _ => .absent
  reader := fun _ => none

def setStage (s : State) (writer : ℕ) (stage : Stage) : State :=
  { s with writer := Function.update s.writer writer stage }

def setReader (s : State) (reader : ℕ) (reading : Reading) : State :=
  { s with reader := Function.update s.reader reader (some reading) }

/-- `open(tmp_path, 'w')`. -/
def createFile (s : State) (writer : ℕ) (job : Job) : State :=
  { s.setStage writer (.writing job ⟨s.disk.number job.tmpPath, 0, []⟩) with
    disk := s.disk.create job.tmpPath }

/-- What an event does.  It does nothing to a writer or a reader that is not ready for it. -/
def after (s : State) : Event → State
  | .opens w path number =>
    match s.writer w with
    | .absent => s.createFile w ⟨path, number, false⟩
    | _ => s
  | .enters w path number =>
    match s.writer w with
    | .absent => s.setStage w (.entered ⟨path, number, true⟩)
    | _ => s
  | .creates w =>
    match s.writer w with
    | .entered job => s.createFile w job
    | _ => s
  | .writes w data =>
    match s.writer w with
    | .writing job handle =>
        s.setStage w (.writing job { handle with buffer := handle.buffer ++ data })
    | _ => s
  | .spills w count =>
    match s.writer w with
    | .writing job handle =>
        let out := handle.buffer.take count
        { s.setStage w (.writing job
            { handle with offset := handle.offset + out.length,
                          buffer := handle.buffer.drop count }) with
          disk := s.disk.write handle.file handle.offset out }
    | _ => s
  | .finishes w =>
    match s.writer w with
    | .entered _ => s.setStage w .ended
    | .writing job handle =>
        -- `rename_dont_move` raises if the target is there, and the temporary file stays
        let stage : Stage :=
          if job.byCommand && (s.disk.file job.path).isSome then .ended else .flushed job
        { s.setStage w stage with
          disk := s.disk.write handle.file handle.offset handle.buffer }
    | _ => s
  | .moves w =>
    match s.writer w with
    | .flushed job =>
        { s.setStage w (.moved job) with disk := s.disk.rename job.tmpPath job.path }
    | _ => s
  | .drops w =>
    match s.writer w with
    | .entered _ => s.setStage w .ended
    | .writing job _ | .moved job =>
        -- only `atomic_file` has a `__del__`
        if job.byCommand then s.setStage w .ended
        else { s.setStage w .ended with disk := s.disk.remove job.tmpPath }
    | _ => s
  | .dies w =>
    match s.writer w with
    | .absent => s
    | _ => s.setStage w .ended
  | .removes path => { s with disk := s.disk.remove path }
  | .openRead r path =>
    match s.reader r, s.disk.file path with
    | none, some file => s.setReader r ⟨file, []⟩
    | _, _ => s
  | .reads r count =>
    match s.reader r with
    | some reading =>
        let more := ((s.disk.content reading.file).drop reading.got.length).take count
        s.setReader r { reading with got := reading.got ++ more }
    | none => s

end State

/-! ## What the files are for -/

/-- How far a writer has come, without the files and buffers that it uses. -/
inductive Course where
  | absent
  | entered (path : Path)
  | writing (path : Path) (byCommand : Bool) (data : List UInt8)
  | final (path : Path) (data : List UInt8)
  | ended
  deriving DecidableEq

/-- A shelf of targets, on which a whole content is put at once. -/
structure Shelf where
  content : Path → Option (List UInt8)
  course : ℕ → Course
  /-- What a reader took from the shelf, and how much of it it has seen. -/
  copy : ℕ → Option (List UInt8 × List UInt8)

namespace Shelf

def initial (disk : Disk Path) : Shelf where
  content := disk.read
  course := fun _ => .absent
  copy := fun _ => none

def setCourse (shelf : Shelf) (writer : ℕ) (course : Course) : Shelf :=
  { shelf with course := Function.update shelf.course writer course }

def setCopy (shelf : Shelf) (reader : ℕ) (copy : List UInt8 × List UInt8) : Shelf :=
  { shelf with copy := Function.update shelf.copy reader (some copy) }

def after (shelf : Shelf) : Event → Shelf
  | .opens w path _ =>
    match shelf.course w with
    | .absent => shelf.setCourse w (.writing path false [])
    | _ => shelf
  | .enters w path _ =>
    match shelf.course w with
    | .absent => shelf.setCourse w (.entered path)
    | _ => shelf
  | .creates w =>
    match shelf.course w with
    | .entered path => shelf.setCourse w (.writing path true [])
    | _ => shelf
  | .writes w data =>
    match shelf.course w with
    | .writing path byCommand before =>
        shelf.setCourse w (.writing path byCommand (before ++ data))
    | _ => shelf
  | .spills _ _ => shelf
  | .finishes w =>
    match shelf.course w with
    | .entered _ => shelf.setCourse w .ended
    | .writing path byCommand data =>
        shelf.setCourse w
          (if byCommand && (shelf.content path).isSome then .ended else .final path data)
    | _ => shelf
  | .moves w =>
    match shelf.course w with
    | .final path data =>
        { shelf.setCourse w .ended with
          content := Function.update shelf.content path (some data) }
    | _ => shelf
  | .drops w =>
    match shelf.course w with
    | .entered _ | .writing _ _ _ => shelf.setCourse w .ended
    | _ => shelf
  | .dies w =>
    match shelf.course w with
    | .absent => shelf
    | _ => shelf.setCourse w .ended
  | .removes path => { shelf with content := Function.update shelf.content path none }
  | .openRead r path =>
    match shelf.copy r, shelf.content path with
    | none, some data => shelf.setCopy r (data, [])
    | _, _ => shelf
  | .reads r count =>
    match shelf.copy r with
    | some (data, got) =>
        shelf.setCopy r (data, got ++ (data.drop got.length).take count)
    | none => shelf

end Shelf

end Trun.Target
