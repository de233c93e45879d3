import FilterLists.Fetch
import FilterLists.Service

/-!
Refresh cycles. A cycle takes a snapshot of the filters that are due, downloads each into a working
copy and writes it to the cache, a limited number at a time, and then merges all results into the
registry at once. If any filter got new content, a running engine is reconfigured.

A filter whose download or save fails is left out of the merge. The one failure of a cycle is that
the engine rejects the merged filters.
-/
namespace FilterLists

structure RefreshPolicy where
  interval : Span := .ofHours 24
  limit : Nat := 4
  paused : Bool := false
deriving DecidableEq, Repr

namespace Refresh

/-- A working copy whose cached file is gone forgets its checksum, so that an unchanged body is
written back. -/
def prepare (s : Store) (faults : Faults) (f : Filter) : Filter :=
  if f.checksum.isSome && (s.lastModified faults f).isNone then { f with checksum := none } else f

/-- Writes new content to the cache, or marks the cached file as fresh. A failed save skips the
filter; after a failed mark the working copy is dated by the clock. -/
def persist (s : Store) (faults : Faults) (now : Instant) (f : Filter) (changed : Bool) :
    Store × Option Refreshed :=
  if changed then
    match s.save faults now f with
    | (saved, .ok filter) => (saved, some { filter, changed })
    | (failed, .error _) => (failed, none)
  else
    match s.touch faults now f with
    | (touched, .ok filter) => (touched, some { filter, changed })
    | (same, .error _) => (same, some { filter := { f with lastUpdated := some now }, changed })

def one (s : Store) (faults : Faults) (now : Instant) (reply : Reply) (f : Filter) :
    Store × Option Refreshed :=
  match Fetch.apply reply (prepare s faults f) with
  | .error _ => (s, none)
  | .ok (fetched, changed) => persist s faults now fetched changed

def all (s : Store) (faults : Filter → Faults) (network : Network) (now : Instant) :
    List Filter → Store × List Refreshed
  | [] => (s, [])
  | f :: rest =>
    let (next, outcome) := one s (faults f) now (network f.url) f
    let (last, outcomes) := all next faults network now rest
    (last, outcome.toList ++ outcomes)

/-- Merges the results of a cycle and reconfigures a running engine if a filter got new content. -/
def conclude (s : Service) (results : List Refreshed) : Service × Except Error Nat :=
  let (registry, updated) := s.registry.merge results
  let merged := { s with registry }
  if 0 < updated ∧ s.engine.running then
    match merged.reconfigure with
    | (configured, .ok ()) => (configured, .ok updated)
    | (rejected, .error e) => (rejected, .error e)
  else (merged, .ok updated)

def candidates (s : Service) (policy : RefreshPolicy) (now : Instant) (force : Bool) :
    List Filter :=
  if policy.paused then [] else s.registry.refreshCandidates force now policy.interval

/-- A whole cycle in which every answer comes at once. -/
def execute (s : Service) (policy : RefreshPolicy) (faults : Filter → Faults) (network : Network)
    (now : Instant) (force : Bool) : Service × Except Error Nat :=
  let (store, results) := all s.store faults network now (candidates s policy now force)
  conclude { s with store } results

end Refresh

/-- A working copy on its way through a cycle: downloading, or downloaded and not yet written. -/
inductive Task
  | fetching (ticket : Nat) (filter : Filter)
  | fetched (ticket : Nat) (filter : Filter) (changed : Bool)

def Task.ticket : Task → Nat
  | .fetching ticket _ => ticket
  | .fetched ticket _ _ => ticket

/-- A cycle under way. Tickets number the working copies in the order in which they start. -/
structure Cycle where
  waiting : List Filter
  active : List Task := []
  results : List Refreshed := []
  started : Nat := 0

namespace Cycle

def begin (s : Service) (policy : RefreshPolicy) (now : Instant) (force : Bool) : Cycle :=
  { waiting := Refresh.candidates s policy now force }

/-- Starts the next download if the limit allows one more; a limit of zero counts as one. -/
def launch? (s : Store) (faults : Faults) (limit : Nat) (c : Cycle) : Option (Cycle × Filter) :=
  match c.waiting with
  | [] => none
  | f :: rest =>
    if c.active.length < max limit 1 then
      let prepared := Refresh.prepare s faults f
      some ({ c with
                waiting := rest
                active := c.active ++ [.fetching c.started prepared]
                started := c.started + 1 }, prepared)
    else none

/-- Ends the download with a ticket. A failed one leaves the cycle. -/
def receive (c : Cycle) (ticket : Nat) (reply : Reply) : Cycle :=
  { c with
    active := c.active.filterMap (fun task =>
      match task with
      | .fetching t f =>
        if t = ticket then
          match Fetch.apply reply f with
          | .ok (fetched, changed) => some (.fetched t fetched changed)
          | .error _ => none
        else some task
      | .fetched .. => some task) }

def persist (s : Store) (faults : Faults) (now : Instant) (c : Cycle) (ticket : Nat) :
    Store × Cycle :=
  match c.active.find? (fun task => task.ticket = ticket) with
  | some (.fetched _ f changed) =>
    let (stored, outcome) := Refresh.persist s faults now f changed
    (stored, { c with
      active := c.active.filter (fun task => task.ticket ≠ ticket)
      results := c.results ++ outcome.toList })
  | _ => (s, c)

def isDone (c : Cycle) : Bool :=
  c.waiting.isEmpty && c.active.isEmpty

def conclude (s : Service) (c : Cycle) : Service × Except Error Nat :=
  Refresh.conclude s c.results

end Cycle

end FilterLists
