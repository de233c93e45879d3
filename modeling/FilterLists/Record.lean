import FilterLists.Fetch
import FilterLists.Store

/-!
Operations on a record of the caller. They write into the record in place, one field after another,
so whatever was written before a failure stays. Calls on the cache come one after another, each with
a record of its own.
-/
namespace FilterLists

/-- A computation that works on a state in place and may fail on the way. What it has written by
then stays written. -/
abbrev InPlace (σ : Type) := ExceptT Error (StateM σ)

def InPlace.perform (x : InPlace σ α) (start : σ) : Except Error α × σ :=
  x.run.run start

namespace Filter

/-- Writes a content and what is known of it. The title is left to the caller. -/
def storeContent (content : Bytes) (sum : UInt32) : StateM Filter (Option String) := do
  let summary := Content.Summary.ofBytes content
  modify fun f => { f with ruleCount := summary.ruleCount }
  modify fun f => { f with checksum := some sum }
  modify fun f => { f with content := some content }
  return summary.title

/-- Writes a downloaded body, unless its checksum is the known one. -/
def storeFetched (body : Bytes) : StateM Filter Bool := do
  let sum := FilterLists.checksum body
  if (← get).checksum = some sum then return false
  if let some title ← storeContent body sum then
    modify fun f => { f with name := title }
  return true

end Filter

namespace Fetch

def download (network : Network) : InPlace Filter Bool := do
  let url := (← get).url
  match network url with
  | .failed cause => throw (.requestFailed url cause)
  | .answered status header body =>
    if status ≠ 200 then throw (.unexpectedStatus url status)
    let contentType := contentTypeText header
    if !isPlainText contentType then throw (.unexpectedContentType url contentType)
    match body with
    | .error cause => throw (.transferFailed url cause)
    | .ok bytes => Filter.storeFetched bytes

/-- Downloads into one record, each from the network as it is then, with the results. -/
def downloadAll (f : Filter) : List Network → Filter × List (Except Error Bool)
  | [] => (f, [])
  | network :: rest =>
    let (result, fetched) := (download network).perform f
    let (last, results) := downloadAll fetched rest
    (last, result :: results)

end Fetch

namespace Store

def saveRecord (faults : Faults) (now : Instant) : InPlace (Store × Filter) Unit := do
  let (s, f) ← get
  let ready ← s.ensureDirectory faults now
  let temp := tempName f.id ready.process ready.saves
  let begun := { ready with saves := ready.saves + 1 }
  let (reached, written) := begun.writeThrough faults now temp (fileName f.id) (f.content.getD [])
  set (reached, f)
  if let .error e := written then
    set (reached.discard faults temp, f)
    throw (.io (s.filePath f) e)
  set (reached, { f with lastUpdated := reached.lastModified faults f })

def loadRecord (faults : Faults) : InPlace (Store × Filter) Unit := do
  let (s, f) ← get
  match s.read faults (fileName f.id) with
  | .error .notFound => throw (.notCached (s.filePath f))
  | .error e => throw (.io (s.filePath f) e)
  | .ok content =>
    let (_, loaded) := (Filter.storeContent content (checksum content)).run f
    set (s, loaded)
    set (s, { loaded with lastUpdated := s.lastModified faults loaded })

def touchRecord (faults : Faults) (now : Instant) : InPlace (Store × Filter) Unit := do
  let (s, f) ← get
  match unlessRefused (faults .touch) (s.entry (fileName f.id)) with
  | .ok (.file content _) =>
    set (s.put (fileName f.id) (.file content now), f)
    modify fun (touched, f) => (touched, { f with lastUpdated := some now })
  | .ok (.directory ..) => throw (.io (s.filePath f) .isADirectory)
  | .error e => throw (.io (s.filePath f) e)

/-- Removing the file leaves the record as it is. -/
def removeRecord (faults : Faults) : InPlace (Store × Filter) Unit := do
  let (s, f) ← get
  let (reached, removed) := s.remove faults f
  set (reached, f)
  removed

end Store

inductive StoreOperation
  | save
  | load
  | touch
  | remove
deriving DecidableEq, Repr

structure StoreCall where
  operation : StoreOperation
  filter : Filter
  faults : Faults
  now : Instant

/-- What a call leaves: the cache, the record that it was given, and how it ended. -/
structure StoreOutcome where
  store : Store
  filter : Filter
  result : Except Error Unit

namespace StoreCall

def action (c : StoreCall) : InPlace (Store × Filter) Unit :=
  match c.operation with
  | .save => Store.saveRecord c.faults c.now
  | .load => Store.loadRecord c.faults
  | .touch => Store.touchRecord c.faults c.now
  | .remove => Store.removeRecord c.faults

def run (c : StoreCall) (s : Store) : StoreOutcome :=
  let (result, store, filter) := c.action.perform (s, c.filter)
  { store, filter, result }

def runAll (s : Store) : List StoreCall → Store × List (StoreCall × StoreOutcome)
  | [] => (s, [])
  | c :: rest =>
    let outcome := c.run s
    let (last, outcomes) := runAll outcome.store rest
    (last, (c, outcome) :: outcomes)

end StoreCall

end FilterLists
