import FilterLists.Config.Document

/-!
Configuration files. A file that does not exist stands for the defaults. Saving the subscriptions
reads the file again, so that nothing else in it changes.
-/
namespace FilterLists

inductive ConfigError
  | io (path : String) (cause : IoError)
  | malformed
  | invalid (fault : ConfigFault)
deriving DecidableEq, Repr

def ConfigError.message : ConfigError → String
  | .io path cause => "Failed to read config file " ++ path ++ ": " ++ cause.message
  | .malformed => "Failed to parse config:"
  | .invalid fault => "Invalid configuration: " ++ fault.message

namespace Config

def readText (tree : FileTree) (path : String) : Except ConfigError String :=
  match tree.read path with
  | .error e => .error (.io path e)
  | .ok bytes =>
    match Utf8.decode? bytes with
    | some text => .ok (String.ofList text)
    | none => .error (.io path .malformedText)

def load (tree : FileTree) (path : Option String) (overrides : Overrides) :
    Except ConfigError Config :=
  match path with
  | none => .ok (Config.applyOverrides {} overrides)
  | some path =>
    if tree.exists? path then do
      let text ← readText tree path
      match Document.read? text with
      | some config => .ok (config.applyOverrides overrides)
      | none => .error .malformed
    else .ok (Config.applyOverrides {} overrides)

def save (c : Config) (tree : FileTree) (path : String) (now : Instant) :
    Except ConfigError FileTree :=
  (tree.write path (bytesOf (Document.write c)) now).mapError (.io path)

def saveFilters (tree : FileTree) (path : String) (filters : List Filter) (now : Instant) :
    Except ConfigError FileTree := do
  let onDisk ← load tree (some path) {}
  let replaced := { onDisk with filtering := { onDisk.filtering with filters } }
  replaced.save tree path now

/-- Writes the names that a running service knows into a file, if any of them differs there. -/
def saveNames (tree : FileTree) (path : String) (runtime : List Filter) (now : Instant) :
    Except ConfigError FileTree := do
  let onDisk ← load tree (some path) {}
  let (filtering, renamed) := onDisk.filtering.applyRuntimeNames runtime
  let named := { onDisk with filtering }
  if renamed = 0 then .ok tree else named.save tree path now

end Config

end FilterLists
