import FilterLists.RuleSet
import FilterLists.Store

/-!
The registry, its cache and the engine as one service, and what a user may ask of it. A user's
request that consults the registry several times is given by its steps, between which other requests
may come.
-/
namespace FilterLists

structure Service where
  registry : Registry
  store : Store
  engine : Engine := {}

namespace Service

def loader (s : Service) (faults : Filter → Faults) : Loader :=
  fun f => s.store.load (faults f) f

def setEnabled (s : Service) (faults : Filter → Faults) (url : String) (enabled : Bool) :
    Service × Bool :=
  let (registry, known) := s.registry.setEnabled (s.loader faults) url enabled
  ({ s with registry }, known)

def loadAll (s : Service) (faults : Filter → Faults) : Service :=
  { s with registry := s.registry.loadAll (s.loader faults) }

def deduplicate (s : Service) : Service × Nat :=
  let (registry, dropped) := s.registry.deduplicate
  ({ s with registry }, dropped)

def startEngine (s : Service) : Service × Except Error Unit :=
  let (engine, result) := s.engine.start s.registry
  ({ s with engine }, result)

def reconfigure (s : Service) : Service × Except Error Unit :=
  let (engine, result) := s.engine.reconfigure s.registry
  ({ s with engine }, result)

def stopEngine (s : Service) : Service :=
  { s with engine := s.engine.stop }

end Service

def checkSubscription (url name : String) : Except Error Unit := do
  (checkUrl url).mapError .invalidUrl
  (checkName name).mapError .invalidName

/-- Appends a new filter unless its URL is listed. -/
def Registry.subscribe (r : Registry) (f : Filter) : Registry × Except Error FilterInfo :=
  match r.add f with
  | (added, true) => (added, .ok f.info)
  | (same, false) => (same, .error (.duplicateFilter f.url))

/-- A request to subscribe to a list, between its steps. -/
inductive AddRequest
  | checking (url name : String) (enabled : Bool)
  | numbering (url name : String) (enabled : Bool)
  | appending (filter : Filter)
  | answered (result : Except Error FilterInfo)

namespace AddRequest

def begin (url name : String) (enabled : Bool) : AddRequest :=
  match checkSubscription url name with
  | .ok () => .checking url name enabled
  | .error e => .answered (.error e)

def step (r : Registry) : AddRequest → Registry × AddRequest
  | .checking url name enabled =>
    if r.contains url then (r, .answered (.error (.duplicateFilter url)))
    else (r, .numbering url name enabled)
  | .numbering url name enabled =>
    let (numbered, id) := r.assignId
    (numbered, .appending { id, url, name, enabled })
  | .appending f =>
    let (subscribed, result) := r.subscribe f
    (subscribed, .answered result)
  | .answered result => (r, .answered result)

def isAnswered : AddRequest → Bool
  | .answered _ => true
  | _ => false

end AddRequest

/-- A request to remove a subscription, between its steps. The subscription goes first and its
cached file after it. A file that cannot be deleted is left. -/
inductive RemoveRequest
  | deleting (filter : Filter)
  | answered (result : Except Error FilterInfo)

namespace RemoveRequest

def begin (r : Registry) (url : String) : Registry × RemoveRequest :=
  match r.remove url with
  | (_, none) => (r, .answered (.error (.unknownFilter url)))
  | (removed, some f) => (removed, .deleting f)

def step (s : Store) (faults : Faults) : RemoveRequest → Store × RemoveRequest
  | .deleting f => ((s.remove faults f).1, .answered (.ok f.info))
  | .answered result => (s, .answered result)

def isAnswered : RemoveRequest → Bool
  | .answered _ => true
  | .deleting _ => false

end RemoveRequest

namespace Service

/-- Subscribes to a list whose content the next refresh fetches: the steps of an `AddRequest`
without anything between them. -/
def addFilter (s : Service) (url name : String) (enabled : Bool) :
    Service × Except Error FilterInfo :=
  match checkSubscription url name with
  | .error e => (s, .error e)
  | .ok () =>
    if s.registry.contains url then (s, .error (.duplicateFilter url))
    else
      let (numbered, id) := s.registry.assignId
      let (registry, result) := numbered.subscribe { id, url, name, enabled }
      ({ s with registry }, result)

def removeFilter (s : Service) (faults : Faults) (url : String) :
    Service × Except Error FilterInfo :=
  match s.registry.remove url with
  | (_, none) => (s, .error (.unknownFilter url))
  | (registry, some f) =>
    ({ s with registry, store := (s.store.remove faults f).1 }, .ok f.info)

def switchFilter (s : Service) (faults : Filter → Faults) (url : String) (enabled : Bool) :
    Service × Except Error Unit :=
  match s.setEnabled faults url enabled with
  | (switched, true) => (switched, .ok ())
  | (same, false) => (same, .error (.unknownFilter url))

end Service

end FilterLists
