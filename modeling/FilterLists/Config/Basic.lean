import FilterLists.Error

/-!
The configuration: logging, the cache and refresh settings, and the subscriptions. Command-line
values take precedence over a file but are never written to one.
-/
namespace FilterLists

structure LoggingConfig where
  level : String := "info"
  json : Bool := false
deriving DecidableEq, Repr

structure FilteringConfig where
  enabled : Bool := true
  dataDir : String := "data"
  filterDir : String := "filters"
  updateIntervalHours : UInt32 := 24
  refreshTickSecs : UInt64 := 60
  fetchTimeoutSecs : UInt64 := 30
  maxConcurrentFetches : UInt64 := 4
  userAgent : String := "ferrous-filters/0.1.0"
  userRules : List String := []
  filters : List Filter := []
deriving DecidableEq, Repr

structure Config where
  logging : LoggingConfig := {}
  filtering : FilteringConfig := {}
deriving DecidableEq, Repr

structure Overrides where
  logLevel : Option String := none
  refreshTickSecs : Option UInt64 := none
deriving DecidableEq, Repr

namespace FilteringConfig

def storageDir (c : FilteringConfig) (workDir : String) : String :=
  Path.join (Path.join workDir c.dataDir) c.filterDir

def updateInterval (c : FilteringConfig) : Span :=
  .ofHours (Int.ofNat c.updateIntervalHours.toNat)

/-- The name that a running service knows for an entry: that of the first of its filters with the
same id and URL. -/
def runtimeName (runtime : List Filter) (f : Filter) : String :=
  match runtime.find? (fun live => live.id = f.id && live.url = f.url) with
  | some live => live.name
  | none => f.name

/-- Takes over the names that a running service knows, and counts the names that change. -/
def applyRuntimeNames (c : FilteringConfig) (runtime : List Filter) : FilteringConfig × Nat :=
  ({ c with filters := c.filters.map (fun f => { f with name := runtimeName runtime f }) },
    c.filters.countP (fun f => runtimeName runtime f ≠ f.name))

end FilteringConfig

inductive ConfigFault
  | updateIntervalZero
  | refreshTickZero
  | fetchTimeoutZero
  | noConcurrentFetches
  | invalidId (url : String) (id : FilterId)
  | emptyDirectory
deriving DecidableEq, Repr

def ConfigFault.message : ConfigFault → String
  | .updateIntervalZero => "filtering.update_interval_hours must be greater than 0"
  | .refreshTickZero => "filtering.refresh_tick_secs must be greater than 0"
  | .fetchTimeoutZero => "filtering.fetch_timeout_secs must be greater than 0"
  | .noConcurrentFetches => "filtering.max_concurrent_fetches must be greater than 0"
  | .invalidId url id => "filter " ++ url ++ " has invalid id " ++ toString id.toInt
  | .emptyDirectory => "filtering.data_dir and filtering.filter_dir cannot be empty"

namespace Config

def applyOverrides (c : Config) (o : Overrides) : Config :=
  { logging := { c.logging with level := o.logLevel.getD c.logging.level }
    filtering := { c.filtering with
      refreshTickSecs := o.refreshTickSecs.getD c.filtering.refreshTickSecs } }

/-- Ids are not negative, zero standing for none, and the last id would leave no room for more. -/
def isInvalidId (f : Filter) : Bool :=
  f.id < 0 || f.id = Int64.maxValue

/-- The first fault, in a fixed order. -/
def validate (c : Config) : Except ConfigFault Unit :=
  let f := c.filtering
  if f.updateIntervalHours = 0 then .error .updateIntervalZero
  else if f.refreshTickSecs = 0 then .error .refreshTickZero
  else if f.fetchTimeoutSecs = 0 then .error .fetchTimeoutZero
  else if f.maxConcurrentFetches = 0 then .error .noConcurrentFetches
  else
    match f.filters.find? isInvalidId with
    | some bad => .error (.invalidId bad.url bad.id)
    | none =>
      if f.dataDir = "" ∨ f.filterDir = "" then .error .emptyDirectory else .ok ()

/-- The configuration as a file keeps it, without the contents of filters. -/
def persisted (c : Config) : Config :=
  { c with filtering := { c.filtering with filters := c.filtering.filters.map Filter.persisted } }

end Config

end FilterLists
