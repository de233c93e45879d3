import FilterLists.CommandLine
import FilterLists.Config.File
import FilterLists.Filter.Json
import FilterLists.Refresh

/-!
One run of the program: a command line, a file tree and a point in time lead to an exit status, a
printed listing and a new file tree. The clock stands still during a run.
-/
namespace FilterLists

inductive SessionError
  | config (e : ConfigError)
  | service (e : Error)
  /-- The engine rejected refreshed filters while the service was running. -/
  | halted
deriving DecidableEq, Repr

/-- The report on standard error: the message and the cause below it. -/
def SessionError.report : SessionError → String
  | .config (.io path cause) =>
    "Error: " ++ (ConfigError.io path cause).message ++ "\n\nCaused by:\n    " ++ cause.message
  | .config e => "Error: " ++ e.message
  | .service e => "Error: " ++ e.message
  | .halted => ""

structure SessionState where
  tree : FileTree
  printed : Option String := none

abbrev SessionM := ExceptT SessionError (StateM SessionState)

structure Outcome where
  status : Nat
  printed : Option String := none
  report : Option String := none
deriving DecidableEq, Repr

namespace Session

structure Setting where
  now : Instant
  network : Network
  /-- How many cycles the service completes before it is interrupted. -/
  cycles : Nat := 0

def liftConfig (result : Except ConfigError α) : SessionM α :=
  ExceptT.mk (pure (result.mapError .config))

def liftService (result : Except Error α) : SessionM α :=
  ExceptT.mk (pure (result.mapError .service))

def updateTree (f : FileTree → Except ConfigError FileTree) : SessionM Unit := do
  let changed ← liftConfig (f (← get).tree)
  modify fun s => { s with tree := changed }

def loadConfig (i : Invocation) : SessionM Config := do
  let config ← liftConfig (Config.load (← get).tree (some i.configPath) i.overrides)
  liftConfig (config.validate.mapError .invalid)
  pure config

/-- The registry at the start of a run: the configured filters without duplicates, all with ids, and
the enabled ones with their cached contents. -/
def startRegistry (c : FilteringConfig) (now : Instant) (load : Loader) : Registry :=
  let configured := ((Registry.empty now).withFilters c.filters).withUserRules c.userRules
  configured.deduplicate.1.loadAll load

/-- Makes the cache directory and starts the service on it. -/
def openService (setting : Setting) (i : Invocation) (config : Config) : SessionM Service := do
  let c := config.filtering
  let path := c.storageDir i.workDir
  let (made, result) := (← get).tree.ensurePath path setting.now
  modify fun s => { s with tree := made }
  liftService (result.mapError (.io path))
  let store : Store := { path, place := (made.find path).toOption }
  let registry := startRegistry c setting.now (fun f => store.load Faults.none f)
  let _ ← liftService (Client.withUserAgent c.userAgent)
  let service : Service := { registry, store }
  if c.enabled then
    let (started, result) := service.startEngine
    liftService result
    pure started
  else pure service

/-- Looks at the cache directory again after a change of the file tree, since the configuration file
may be in it. -/
def reopenCache (s : Service) : SessionM Service := do
  let place := ((← get).tree.find s.store.path).toOption
  pure { s with store := { s.store with place } }

def keepCache (s : Service) : SessionM Unit :=
  match s.store.place with
  | some node => modify fun st => { st with tree := st.tree.replace s.store.path node }
  | none => pure ()

def print (s : Service) : SessionM Unit :=
  modify fun st => { st with printed := some (FilterInfo.listing s.registry.list) }

def saveConfig (setting : Setting) (i : Invocation) (s : Service) : SessionM Unit :=
  updateTree (Config.saveFilters · i.configPath s.registry.filters setting.now)

def policyOf (c : FilteringConfig) : RefreshPolicy :=
  { interval := c.updateInterval, limit := c.maxConcurrentFetches.toNat }

/-- Runs cycles one after another. Only the first can be a forced one. -/
def serve (setting : Setting) (policy : RefreshPolicy) : Nat → Bool → Service → SessionM Service
  | 0, _, s => pure s
  | n + 1, force, s => do
    let (after, result) := Refresh.execute s policy Faults.noneFor setting.network setting.now force
    keepCache after
    match result with
    | .ok _ => serve setting policy n false after
    | .error _ => throw .halted

def perform (setting : Setting) (i : Invocation) (config : Config) (s : Service) :
    SessionM Unit := do
  let policy := policyOf config.filtering
  match i.command with
  | .run force =>
    saveConfig setting i s
    let served ← serve setting policy setting.cycles force (← reopenCache s)
    updateTree (Config.saveNames · i.configPath served.registry.filters setting.now)
  | .refresh force =>
    let (refreshed, result) :=
      Refresh.execute s policy Faults.noneFor setting.network setting.now force
    keepCache refreshed
    let _ ← liftService result
    print refreshed
    saveConfig setting i refreshed
  | .list => print s
  | .add url name enabled =>
    let (added, result) := s.addFilter url name enabled
    let _ ← liftService result
    saveConfig setting i added
  | .remove url =>
    let (removed, result) := s.removeFilter Faults.none url
    let _ ← liftService result
    keepCache removed
    saveConfig setting i removed
  | .enable url =>
    let (enabled, result) := s.switchFilter Faults.noneFor url true
    liftService result
    saveConfig setting i enabled
  | .disable url =>
    let (disabled, result) := s.switchFilter Faults.noneFor url false
    liftService result
    saveConfig setting i disabled

def execute (setting : Setting) (i : Invocation) : SessionM Unit := do
  let config ← loadConfig i
  let service ← openService setting i config
  perform setting i config service

def run (setting : Setting) (args : List String) (tree : FileTree) : FileTree × Outcome :=
  match CommandLine.read args with
  | .error .informed => (tree, { status := 0 })
  | .error .misused => (tree, { status := 2 })
  | .ok invocation =>
    let (result, state) := ((execute setting invocation).run).run { tree }
    match result with
    | .ok () => (state.tree, { status := 0, printed := state.printed })
    | .error e =>
      (state.tree, { status := 1, printed := state.printed, report := some e.report })

end Session

end FilterLists
