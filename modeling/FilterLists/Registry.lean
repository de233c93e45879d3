import FilterLists.Error

/-!
The subscribed filters in order, the counter of ids and the local rules. An operation that needs a
cached content is handed the way to load it.
-/
namespace FilterLists

abbrev Loader := Filter → Except Error Filter

/-- A working copy after its refresh, and whether its content is new. -/
structure Refreshed where
  filter : Filter
  changed : Bool
deriving DecidableEq, Repr

structure Registry where
  filters : List Filter := []
  nextId : FilterId := 1
  userRules : List String := []
deriving DecidableEq, Repr

/-- The id after a given one; the last id is its own successor. -/
def FilterId.next (id : FilterId) : FilterId :=
  if id = Int64.maxValue then id else id + 1

namespace Registry

/-- The counter starts at the time in seconds, above the ids that earlier runs have given out. -/
def empty (now : Instant) : Registry :=
  { nextId := Int64.ofInt (max now.seconds 1) }

/-- Raises a counter above the ids of the given filters. -/
def raised (nextId : FilterId) (filters : List Filter) : FilterId :=
  filters.foldl (fun next f => if next ≤ f.id then FilterId.next f.id else next) nextId

def advanceIdFloor (r : Registry) (filters : List Filter) : Registry :=
  { r with nextId := raised r.nextId filters }

def withFilters (r : Registry) (filters : List Filter) : Registry :=
  { r.advanceIdFloor filters with filters }

def withUserRules (r : Registry) (rules : List String) : Registry :=
  { r with userRules := rules }

def assignId (r : Registry) : Registry × FilterId :=
  ({ r with nextId := FilterId.next r.nextId }, r.nextId)

def get? (r : Registry) (url : String) : Option Filter :=
  r.filters.find? (fun f => f.url = url)

def contains (r : Registry) (url : String) : Bool :=
  r.filters.any (fun f => f.url = url)

def modifyFirst (p : α → Bool) (g : α → α) : List α → List α
  | [] => []
  | a :: rest => if p a then g a :: rest else a :: modifyFirst p g rest

def add (r : Registry) (f : Filter) : Registry × Bool :=
  if r.contains f.url then (r, false) else ({ r with filters := r.filters ++ [f] }, true)

def remove (r : Registry) (url : String) : Registry × Option Filter :=
  ({ r with filters := r.filters.eraseP (fun f => f.url = url) }, r.get? url)

/-- Enabling loads the cached content. Where that fails the filter counts as never updated, so that
the next refresh fetches it. Disabling drops the content. -/
def switch (load : Loader) (enabled : Bool) (f : Filter) : Filter :=
  let switched := { f with enabled }
  if enabled then
    match load switched with
    | .ok loaded => loaded
    | .error _ => { switched with lastUpdated := none }
  else switched.unload

def setEnabled (r : Registry) (load : Loader) (url : String) (enabled : Bool) : Registry × Bool :=
  if r.contains url then
    ({ r with filters := modifyFirst (fun f => f.url = url) (switch load enabled) r.filters }, true)
  else (r, false)

/-- Gives the filters that have none an id, in order. -/
def assignMissing (nextId : FilterId) : List Filter → List Filter × FilterId
  | [] => ([], nextId)
  | f :: rest =>
    if f.id = 0 then
      let (assigned, last) := assignMissing (FilterId.next nextId) rest
      ({ f with id := nextId } :: assigned, last)
    else
      let (assigned, last) := assignMissing nextId rest
      (f :: assigned, last)

/-- Loads a filter that is enabled; without a cached content it stays as it is. -/
def loadEnabled (load : Loader) (f : Filter) : Filter :=
  if f.enabled then
    match load f with
    | .ok loaded => loaded
    | .error _ => f
  else f

def loadAll (r : Registry) (load : Loader) : Registry :=
  let (assigned, nextId) := assignMissing r.nextId r.filters
  { r with filters := assigned.map (loadEnabled load), nextId }

/-- Keeps the filters whose URL is not among the given ones and does not occur earlier. -/
def firstByUrl : List String → List Filter → List Filter
  | _, [] => []
  | seen, f :: rest =>
    if f.url ∈ seen then firstByUrl seen rest else f :: firstByUrl (f.url :: seen) rest

/-- Drops the filters whose URL occurs earlier and counts them. -/
def deduplicate (r : Registry) : Registry × Nat :=
  let kept := firstByUrl [] r.filters
  ({ r with filters := kept }, r.filters.length - kept.length)

def list (r : Registry) : List FilterInfo :=
  r.filters.map Filter.info

def loaded (r : Registry) : List Filter :=
  r.filters.filter (fun f => f.enabled && f.holdsContent)

def userFilter (r : Registry) : Filter :=
  Filter.ofUserRules r.userRules

/-- Working copies of the enabled filters that are stale, or of all enabled ones. -/
def refreshCandidates (r : Registry) (force : Bool) (now : Instant) (threshold : Span) :
    List Filter :=
  (r.filters.filter (fun f => f.enabled && (force || f.isStale now threshold))).map
    Filter.refreshCopy

/-- What a live filter takes over from a refreshed working copy. One that was disabled meanwhile
takes over the time only. -/
def takeOver (fresh : Refreshed) (live : Filter) : Filter :=
  let dated := { live with lastUpdated := fresh.filter.lastUpdated }
  if fresh.changed && live.enabled then
    { dated with
      name := fresh.filter.name
      content := fresh.filter.content
      ruleCount := fresh.filter.ruleCount
      checksum := fresh.filter.checksum }
  else dated

def sameSubscription (f g : Filter) : Bool :=
  f.id = g.id && f.url = g.url

/-- Applies one result to the live filter with the same id and URL, if there still is one, and tells
whether that filter got new content. -/
def mergeOne (r : Registry) (fresh : Refreshed) : Registry × Bool :=
  match r.filters.find? (sameSubscription · fresh.filter) with
  | none => (r, false)
  | some live =>
    ({ r with
        filters := modifyFirst (sameSubscription · fresh.filter) (takeOver fresh) r.filters },
      fresh.changed && live.enabled)

def mergeFrom (r : Registry) (updated : Nat) : List Refreshed → Registry × Nat
  | [] => (r, updated)
  | fresh :: rest =>
    let (merged, changed) := r.mergeOne fresh
    mergeFrom merged (if changed then updated + 1 else updated) rest

/-- Applies results in order and counts the filters that got new content. -/
def merge (r : Registry) (results : List Refreshed) : Registry × Nat :=
  r.mergeFrom 0 results

end Registry

end FilterLists
