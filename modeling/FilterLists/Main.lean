import FilterLists.Session

/-!
The program on the disk. Before a run the files that it may read are brought into a file tree; after
it what has changed there is written back. The clock stands at the second that the environment gives
as `SOURCE_DATE_EPOCH`, and cached files count as written at the epoch. There is no network.
-/
namespace FilterLists.Main

/-- What stands at a path on the disk. Something that is there and is no file counts as a
directory. -/
def readNode (path : String) : IO (Option Node) := do
  match ← (IO.FS.readBinFile path).toBaseIO with
  | .ok content => return some (.file content.toList ⟨0⟩)
  | .error (.noFileOrDirectory ..) => return none
  | .error _ => return some (.directory [] ⟨0⟩)

def fetchPath (tree : FileTree) (path : String) : IO FileTree := do
  let directory := Path.parent (Path.parts path)
  let (made, _) := tree.ensureParts (Path.isAbsolute path) directory ⟨0⟩
  match ← readNode path with
  | some (.file content modified) => return (made.write path content modified).toOption.getD made
  | some (.directory ..) => return (made.ensurePath path ⟨0⟩).1
  | none => return tree

def cachePaths (i : Invocation) (c : FilteringConfig) : List String :=
  c.filters.map fun f => Path.join (c.storageDir i.workDir) (Store.fileName f.id)

/-- The part of the disk that a command can see. -/
def readTree (i : Invocation) : IO (FileTree × List String) := do
  let tree ← fetchPath { root := .directory [] ⟨0⟩ } i.configPath
  match Config.load tree (some i.configPath) {} with
  | .error _ => return (tree, [i.configPath])
  | .ok config =>
    let paths := cachePaths i config.filtering
    return (← paths.foldlM fetchPath tree, i.configPath :: paths)

def writeBack (before after : FileTree) (path : String) : IO Unit := do
  match (before.read path).toOption, (after.read path).toOption with
  | some _, none => IO.FS.removeFile path
  | old, some new =>
    if old ≠ some new then IO.FS.writeBinFile path new.toByteArray
  | none, none => pure ()

def keepDirectory (after : FileTree) (i : Invocation) : IO Unit := do
  match Config.load after (some i.configPath) {} with
  | .ok config =>
    let path := config.filtering.storageDir i.workDir
    if after.exists? path then IO.FS.createDirAll path
  | .error _ => pure ()

def clock : IO Instant := do
  let seconds := ((← IO.getEnv "SOURCE_DATE_EPOCH").bind String.toInt?).getD 0
  return ⟨seconds * 1000000000⟩

end FilterLists.Main

open FilterLists in
def main (args : List String) : IO UInt32 := do
  let setting : Session.Setting :=
    { now := ← Main.clock, network := Network.unreachable "network is unreachable" }
  match CommandLine.read args with
  | .error _ => return (Session.run setting args { root := .directory [] ⟨0⟩ }).2.status.toUInt32
  | .ok invocation =>
    let (before, paths) ← Main.readTree invocation
    let (after, outcome) := Session.run setting args before
    Main.keepDirectory after invocation
    paths.forM (Main.writeBack before after)
    outcome.printed.forM IO.println
    outcome.report.forM IO.eprintln
    return outcome.status.toUInt32
