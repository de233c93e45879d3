import FilterLists.Checksum
import FilterLists.Content
import FilterLists.Instant

/-!
One subscribed filter list. The id, the URL, the name and the enabled flag are configuration; the
other fields describe the content that is held at present.
-/
namespace FilterLists

abbrev FilterId := Int64

/-- The id of the filter made of local rules. A subscription with this id has no id yet. -/
def userFilterId : FilterId := 0

structure Filter where
  id : FilterId := 0
  url : String
  name : String := ""
  enabled : Bool := false
  ruleCount : Nat := 0
  lastUpdated : Option Instant := none
  checksum : Option UInt32 := none
  content : Option Bytes := none
deriving DecidableEq, Repr

/-- What a caller is told about a filter. -/
structure FilterInfo where
  id : FilterId
  url : String
  name : String
  enabled : Bool
  ruleCount : Nat
  lastUpdated : Option Instant
deriving DecidableEq, Repr

namespace Filter

def persisted (f : Filter) : Filter :=
  { id := f.id, url := f.url, name := f.name, enabled := f.enabled }

def info (f : Filter) : FilterInfo :=
  { id := f.id, url := f.url, name := f.name, enabled := f.enabled, ruleCount := f.ruleCount,
    lastUpdated := f.lastUpdated }

/-- Stores the content with its rule count and checksum. -/
def setContent (f : Filter) (content : Bytes) : Filter :=
  { f with
    ruleCount := (Content.Summary.ofBytes content).ruleCount
    checksum := some (FilterLists.checksum content)
    content := some content }

/-- Stores a downloaded body and takes over its title, unless its checksum is the known one.
The flag tells whether the body was stored. -/
def applyFetched (f : Filter) (body : Bytes) : Filter × Bool :=
  if f.checksum = some (FilterLists.checksum body) then (f, false)
  else
    let title := (Content.Summary.ofBytes body).title
    ({ f.setContent body with name := title.getD f.name }, true)

/-- Drops the content; without the checksum the next download counts as a change. -/
def unload (f : Filter) : Filter :=
  { f with content := none, ruleCount := 0, checksum := none }

/-- The working copy of a refresh: the checksum is kept and the content is not. -/
def refreshCopy (f : Filter) : Filter :=
  { f with ruleCount := 0, content := none }

def ofUserRules (rules : List String) : Filter :=
  { id := userFilterId, url := "", name := "User rules", enabled := true : Filter }.setContent
    (bytesOf ("\n".intercalate rules))

def isUserFilter (f : Filter) : Bool :=
  f.id = userFilterId && f.url = ""

/-- A filter that was never updated is stale at any time. -/
def isStale (f : Filter) (now : Instant) (threshold : Span) : Bool :=
  match f.lastUpdated with
  | some updated => threshold.nanos < (now.since updated).nanos
  | none => true

def holdsContent (f : Filter) : Bool :=
  f.content.isSome

end Filter

end FilterLists
