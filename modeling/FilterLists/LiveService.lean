import FilterLists.Refresh

/-!
A service together with the cycles and the requests that are under way on it. Whatever happens
changes it in one step, so the orders in which cycles, requests and outsiders can come between one
another are the lists of events.
-/
namespace FilterLists

structure LiveService where
  service : Service
  policy : RefreshPolicy := {}
  cycles : List Cycle := []
  /-- The requests so far. An answered one stays, so that its place in the list names it. -/
  adds : List AddRequest := []
  removals : List RemoveRequest := []
  /-- The results of the cycles that have ended, the last one first. -/
  ended : List (Except Error Nat) := []

/-- What can happen next. Cycles and requests are given by their places in the lists, and an event
that names none, or one that is not ready for it, changes nothing. -/
inductive ServiceEvent
  | cycleBegins (now : Instant) (force : Bool)
  | downloadStarts (cycle : Nat) (faults : Faults)
  | downloadEnds (cycle ticket : Nat) (reply : Reply)
  | persists (cycle ticket : Nat) (faults : Faults) (now : Instant)
  | cycleEnds (cycle : Nat)
  | addBegins (url name : String) (enabled : Bool)
  | addProceeds (request : Nat)
  | removeBegins (url : String)
  | removeProceeds (request : Nat) (faults : Faults)
  | switches (faults : Filter → Faults) (url : String) (enabled : Bool)
  | loadsAll (faults : Filter → Faults)
  | deduplicates
  | assignsId
  | raisesIdFloor (filters : List Filter)
  | setsUserRules (rules : List String)
  /-- Somebody else deletes a cached file. -/
  | fileVanishes (id : FilterId)

namespace LiveService

def withRegistry (l : LiveService) (registry : Registry) : LiveService :=
  { l with service := { l.service with registry } }

def withStore (l : LiveService) (store : Store) : LiveService :=
  { l with service := { l.service with store } }

def endCycle (l : LiveService) (place : Nat) (c : Cycle) : LiveService :=
  if c.isDone then
    let (service, result) := c.conclude l.service
    { l with service, cycles := l.cycles.eraseIdx place, ended := result :: l.ended }
  else l

def step (l : LiveService) : ServiceEvent → LiveService
  | .cycleBegins now force =>
    { l with cycles := l.cycles ++ [.begin l.service l.policy now force] }
  | .downloadStarts place faults =>
    match l.cycles[place]?.bind (Cycle.launch? l.service.store faults l.policy.limit) with
    | some (launched, _) => { l with cycles := l.cycles.set place launched }
    | none => l
  | .downloadEnds place ticket reply =>
    { l with cycles := l.cycles.modify place (Cycle.receive · ticket reply) }
  | .persists place ticket faults now =>
    match l.cycles[place]? with
    | some c =>
      let (store, persisted) := c.persist l.service.store faults now ticket
      { l.withStore store with cycles := l.cycles.set place persisted }
    | none => l
  | .cycleEnds place =>
    match l.cycles[place]? with
    | some c => l.endCycle place c
    | none => l
  | .addBegins url name enabled => { l with adds := l.adds ++ [.begin url name enabled] }
  | .addProceeds place =>
    match l.adds[place]? with
    | some request =>
      let (registry, next) := request.step l.service.registry
      { l.withRegistry registry with adds := l.adds.set place next }
    | none => l
  | .removeBegins url =>
    let (registry, request) := RemoveRequest.begin l.service.registry url
    { l.withRegistry registry with removals := l.removals ++ [request] }
  | .removeProceeds place faults =>
    match l.removals[place]? with
    | some request =>
      let (store, next) := request.step l.service.store faults
      { l.withStore store with removals := l.removals.set place next }
    | none => l
  | .switches faults url enabled =>
    { l with service := (l.service.setEnabled faults url enabled).1 }
  | .loadsAll faults => { l with service := l.service.loadAll faults }
  | .deduplicates => { l with service := l.service.deduplicate.1 }
  | .assignsId => l.withRegistry l.service.registry.assignId.1
  | .raisesIdFloor filters => l.withRegistry (l.service.registry.advanceIdFloor filters)
  | .setsUserRules rules => l.withRegistry (l.service.registry.withUserRules rules)
  | .fileVanishes id => l.withStore (l.service.store.erase (Store.fileName id))

def run (l : LiveService) (events : List ServiceEvent) : LiveService :=
  events.foldl step l

/-- No cycle is in flight. -/
def isIdle (l : LiveService) : Bool :=
  l.cycles.isEmpty

/-- No request is in flight either. -/
def isAtRest (l : LiveService) : Bool :=
  l.isIdle && l.adds.all (·.isAnswered) && l.removals.all (·.isAnswered)

end LiveService

end FilterLists
