import FilterLists.Error

/-!
The background job that refreshes on a timer and on request. Cycles of a job never overlap. Between
two cycles it first obeys a cancellation, then a request for a forced cycle, and then a tick that is
due. Requests reach it through a notifier. Times are milliseconds of a clock that only the caller
moves.
-/
namespace FilterLists

/-- What the task that listens to a notifier is doing. -/
inductive Listener
  | away
  | parked
  | woken
deriving DecidableEq, Repr

/-- Wakes the task that listens to it, when that is parked. A notification that finds the task away,
or woken already, leaves a permit. There is room for one. -/
structure Notifier where
  permit : Bool := false
  listener : Listener := .away
deriving DecidableEq, Repr

namespace Notifier

def notify (n : Notifier) : Notifier :=
  match n.listener with
  | .parked => { n with listener := .woken }
  | .away | .woken => { n with permit := true }

def isReady (n : Notifier) : Bool :=
  match n.listener with
  | .woken => true
  | .away | .parked => n.permit

def park (n : Notifier) : Notifier :=
  { n with listener := .parked }

/-- The listener takes what woke it, or else the permit. -/
def take (n : Notifier) : Notifier :=
  match n.listener with
  | .woken => { n with listener := .away }
  | .away | .parked => {}

/-- The listener turns to something else. What woke it is left as the permit. -/
def leave (n : Notifier) : Notifier :=
  { permit := n.isReady }

end Notifier

inductive JobPhase
  | waiting
  | cycling
  | ended (result : Except Error Unit)

structure Job where
  interval : Nat
  /-- When the next tick is due. -/
  deadline : Nat
  /-- Carries the requests for a forced cycle. -/
  force : Notifier := {}
  cancelled : Bool := false
  phase : JobPhase := .waiting

inductive JobAction
  | stop
  | forcedCycle
  | timedCycle
deriving DecidableEq, Repr

namespace Job

/-- The first tick is due at once. -/
def start (interval now : Nat) : Job :=
  { interval, deadline := now }

def requestForce (j : Job) : Job :=
  { j with force := j.force.notify }

/-- The next cycle that the job starts is a forced one. -/
def forceRequested (j : Job) : Bool :=
  j.force.isReady

def cancel (j : Job) : Job :=
  { j with cancelled := true }

def action? (j : Job) (now : Nat) : Option JobAction :=
  match j.phase with
  | .waiting =>
    if j.cancelled then some .stop
    else if j.forceRequested then some .forcedCycle
    else if j.deadline ≤ now then some .timedCycle
    else none
  | _ => none

def nextTick? (j : Job) : Option Nat :=
  match j.phase with
  | .waiting => some j.deadline
  | _ => none

/-- How late a tick may be, in milliseconds, without putting off the ones after it. -/
def tolerance : Nat := 5

/-- The tick after one that was due at a deadline and is taken now. A late one is followed by a full
interval, so missed ticks are not made up for. -/
def nextDeadline (interval deadline now : Nat) : Nat :=
  if deadline + tolerance < now then now + interval else deadline + interval

/-- A forced cycle does not use up a tick that is due. -/
def perform (j : Job) (now : Nat) : JobAction → Job
  | .stop => { j with force := j.force.leave, phase := .ended (.ok ()) }
  | .forcedCycle => { j with force := j.force.take, phase := .cycling }
  | .timedCycle =>
    { j with
      deadline := nextDeadline j.interval j.deadline now
      force := j.force.leave
      phase := .cycling }

/-- A job that waits and finds nothing to do lets the next request wake it. -/
def rest (j : Job) : Job :=
  match j.phase with
  | .waiting => { j with force := j.force.park }
  | _ => j

/-- A cycle has ended; its error ends the job. -/
def finishCycle (j : Job) (result : Except Error Nat) : Job :=
  match result with
  | .ok _ => { j with phase := .waiting }
  | .error e => { j with phase := .ended (.error e) }

end Job

inductive JobEvent
  | requested
  | cancelled
  /-- The job gets to run and does the one thing that it is ready for, if any. -/
  | wakes
  | cycleEnds (result : Except Error Nat)

namespace Job

def step (j : Job) (now : Nat) : JobEvent → Job × Option JobAction
  | .requested => (j.requestForce, none)
  | .cancelled => (j.cancel, none)
  | .wakes =>
    match j.action? now with
    | some action => (j.perform now action, some action)
    | none => (j.rest, none)
  | .cycleEnds result =>
    match j.phase with
    | .cycling => (j.finishCycle result, none)
    | _ => (j, none)

def run (j : Job) : List (Nat × JobEvent) → Job × List (Nat × JobAction)
  | [] => (j, [])
  | (now, event) :: rest =>
    let (next, action) := j.step now event
    let (last, actions) := next.run rest
    (last, (action.map (now, ·)).toList ++ actions)

end Job

structure JobRunner where
  refresh : Option Job := none

namespace JobRunner

def withRefresh (r : JobRunner) (j : Job) : JobRunner :=
  { r with refresh := some j }

def jobs (r : JobRunner) : List Job :=
  r.refresh.toList

end JobRunner

end FilterLists
