import FilterLists.Error

/-!
The cache of filter contents: one directory with a file `<id>.txt` for each filter. The
modification time of the file is the time of the last update.

Every operation is told which of its file operations the device refuses. A save makes the
directory, writes a temporary file whole and renames it, so that the cached file is never seen
half written.
-/
namespace FilterLists

/-- The file operations of the store, in the order in which a save performs them, and the others. -/
inductive FileOperation
  | makeDirectory
  | create
  | write
  | sync
  | rename
  | discard
  | read
  | stat
  | touch
  | remove
deriving DecidableEq, Repr

/-- The operations that the device refuses of its own accord. -/
abbrev Faults := FileOperation → Option IoError

def Faults.none : Faults := fun _ => .none

def Faults.noneFor : Filter → Faults := fun _ => Faults.none

/-- The directory of the cache and what stands at its path. The process and the number of saves so
far, which starts again at zero after the last 64-bit number, make the names of temporary files. -/
structure Store where
  path : String
  place : Option Node := none
  process : UInt32 := 0
  saves : UInt64 := 0

namespace Store

def fileName (id : FilterId) : String :=
  toString id.toInt ++ ".txt"

def tempName (id : FilterId) (process : UInt32) (saves : UInt64) : String :=
  "." ++ toString id.toInt ++ ".txt." ++ toString process ++ "." ++ toString saves ++ ".tmp"

def filePath (s : Store) (f : Filter) : String :=
  Path.join s.path (fileName f.id)

def entry (s : Store) (name : String) : Except IoError Node :=
  match s.place with
  | none => .error .notFound
  | some node => node.child name

/-- Changes the entries when there is a directory. -/
def mapEntries (s : Store) (f : Entries → Entries) : Store :=
  match s.place with
  | some (.directory entries t) => { s with place := some (.directory (f entries) t) }
  | _ => s

def put (s : Store) (name : String) (node : Node) : Store :=
  s.mapEntries (Entries.put · name node)

def erase (s : Store) (name : String) : Store :=
  s.mapEntries (Entries.erase · name)

def makeDirectory (s : Store) (now : Instant) : Except IoError Store :=
  match s.place with
  | none => .ok { s with place := some (.directory [] now) }
  | some (.directory ..) => .ok s
  | some (.file ..) => .error .alreadyExists

/-- A failure that the device raises comes before the operation has any effect. -/
def unlessRefused (fault : Option IoError) (result : Except IoError α) : Except IoError α :=
  match fault with
  | some e => .error e
  | none => result

def ensureDirectory (s : Store) (faults : Faults) (now : Instant) : Except Error Store :=
  (unlessRefused (faults .makeDirectory) (s.makeDirectory now)).mapError (.io s.path)

/-- The time of the last update, if the file or whatever stands in its place can be examined. -/
def lastModified (s : Store) (faults : Faults) (f : Filter) : Option Instant :=
  match unlessRefused (faults .stat) (s.entry (fileName f.id)) with
  | .ok node => some node.modified
  | .error _ => none

def read (s : Store) (faults : Faults) (name : String) : Except IoError Bytes :=
  unlessRefused (faults .read) <|
    match s.entry name with
    | .ok (.file content _) => .ok content
    | .ok (.directory ..) => .error .isADirectory
    | .error e => .error e

def load (s : Store) (faults : Faults) (f : Filter) : Except Error Filter :=
  match s.read faults (fileName f.id) with
  | .ok content => .ok { f.setContent content with lastUpdated := s.lastModified faults f }
  | .error .notFound => .error (.notCached (s.filePath f))
  | .error e => .error (.io (s.filePath f) e)

/-- Gives a temporary file the name of a cached file. A directory is not replaced. -/
def rename (s : Store) (temp name : String) : Except IoError Store :=
  match s.entry temp, s.entry name with
  | .error e, _ => .error e
  | .ok _, .ok (.directory ..) => .error .isADirectory
  | .ok node, _ => .ok ((s.erase temp).put name node)

/-- Makes an empty file, or empties the one that has the name. The names are those of temporary
files, under which only the store makes entries: a directory that somebody else has put there counts
as a refusal of the device. -/
def create (s : Store) (now : Instant) (name : String) : Except IoError Store :=
  match s.place with
  | none => .error .notFound
  | some (.file ..) => .error .notADirectory
  | some (.directory ..) => .ok (s.put name (.file [] now))

def append (s : Store) (now : Instant) (name : String) (bytes : Bytes) : Store :=
  match s.entry name with
  | .ok (.file content _) => s.put name (.file (content ++ bytes) now)
  | _ => s

/-- Writes a temporary file and gives it its final name. On a failure the store is returned as it is
at that point, with the temporary file if it was made. Nothing is written for an empty content. -/
def writeThrough (s : Store) (faults : Faults) (now : Instant) (temp name : String)
    (content : Bytes) : Store × Except IoError Unit :=
  match unlessRefused (faults .create) (s.create now temp) with
  | .error e => (s, .error e)
  | .ok created =>
    match (if content.isEmpty then none else faults .write) with
    | some e => (created, .error e)
    | none =>
      let written := created.append now temp content
      let moved := unlessRefused (faults .rename) (written.rename temp name)
      match unlessRefused (faults .sync) moved with
      | .error e => (written, .error e)
      | .ok renamed => (renamed, .ok ())

/-- Removes a temporary file, unless that is refused too. -/
def discard (s : Store) (faults : Faults) (temp : String) : Store :=
  if (faults .discard).isNone then s.erase temp else s

def save (s : Store) (faults : Faults) (now : Instant) (f : Filter) :
    Store × Except Error Filter :=
  match s.ensureDirectory faults now with
  | .error e => (s, .error e)
  | .ok ready =>
    let temp := tempName f.id ready.process ready.saves
    let begun := { ready with saves := ready.saves + 1 }
    match begun.writeThrough faults now temp (fileName f.id) (f.content.getD []) with
    | (done, .ok ()) => (done, .ok { f with lastUpdated := done.lastModified faults f })
    | (stopped, .error e) => (stopped.discard faults temp, .error (.io (s.filePath f) e))

/-- Marks the cached file as fresh and leaves its bytes alone. -/
def touch (s : Store) (faults : Faults) (now : Instant) (f : Filter) :
    Store × Except Error Filter :=
  match unlessRefused (faults .touch) (s.entry (fileName f.id)) with
  | .ok (.file content _) =>
    (s.put (fileName f.id) (.file content now), .ok { f with lastUpdated := some now })
  | .ok (.directory ..) => (s, .error (.io (s.filePath f) .isADirectory))
  | .error e => (s, .error (.io (s.filePath f) e))

/-- A file that is not there need not be removed. -/
def remove (s : Store) (faults : Faults) (f : Filter) : Store × Except Error Unit :=
  match unlessRefused (faults .remove) (s.entry (fileName f.id)) with
  | .ok (.file ..) => (s.erase (fileName f.id), .ok ())
  | .ok (.directory ..) => (s, .error (.io (s.filePath f) .isADirectory))
  | .error .notFound => (s, .ok ())
  | .error e => (s, .error (.io (s.filePath f) e))

end Store

end FilterLists
