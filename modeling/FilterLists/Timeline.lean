import FilterLists.Job
import FilterLists.Refresh

/-!
A service on a clock of its own. Answers come from a script and take the time that the script says;
nothing else takes time. What is ready at one instant is done in a fixed order: cycles in the order
in which they began, then the jobs in the order in which they were started. Requests and questions
about the job are about the one that was started last.

Time passes only when the caller waits, and something that falls due at the very end of a wait is
left for the next one.
-/
namespace FilterLists

structure ScriptedReply where
  reply : Reply
  delay : Nat := 0

/-- Who waits for the result of a cycle. -/
inductive CycleOwner
  | caller
  | background (number : Nat)
  | job (number : Nat)
deriving DecidableEq, Repr

structure Download where
  ticket : Nat
  url : String
  id : FilterId
  startedAt : Nat
  dueAt : Nat
  reply : Reply

inductive FetchOutcome
  | changed
  | unchanged
  | failed
deriving DecidableEq, Repr

def FetchOutcome.label : FetchOutcome → String
  | .changed => "changed"
  | .unchanged => "unchanged"
  | .failed => "error"

structure FetchRecord where
  startedAt : Nat
  endedAt : Nat
  url : String
  id : FilterId
  outcome : FetchOutcome
deriving DecidableEq, Repr

/-- The order of the log: by start, end, URL, id and outcome. -/
def FetchRecord.le (a b : FetchRecord) : Bool :=
  if a.startedAt ≠ b.startedAt then a.startedAt < b.startedAt
  else if a.endedAt ≠ b.endedAt then a.endedAt < b.endedAt
  else if a.url ≠ b.url then a.url < b.url
  else if a.id ≠ b.id then a.id < b.id
  else a.outcome.label ≤ b.outcome.label

structure Run where
  owner : CycleOwner
  cycle : Cycle
  downloads : List Download := []

/-- A job on the clock. One that is held by a runner is given up when the next job is started; any
other goes on for good. -/
structure StartedJob where
  number : Nat
  held : Bool
  job : Job

structure Timeline where
  service : Service
  policy : RefreshPolicy := {}
  began : Instant
  elapsed : Nat := 0
  script : List (String × ScriptedReply) := []
  runs : List Run := []
  /-- Jobs that nobody has given up, in the order in which they were started. -/
  jobs : List StartedJob := []
  jobCount : Nat := 0
  /-- Background cycles begun so far, and those that nobody has waited for yet, oldest first. -/
  backgroundCount : Nat := 0
  unjoined : List Nat := []
  ended : List (CycleOwner × Except Error Nat) := []
  inFlight : Nat := 0
  log : List FetchRecord := []
  /-- The most downloads in flight when one started. -/
  peak : Nat := 0

namespace Timeline

def now (t : Timeline) : Instant :=
  t.began.addMillis t.elapsed

def scripted (t : Timeline) (url : String) : ScriptedReply :=
  (t.script.lookup url).getD { reply := .failed "no answer" }

def setScript (t : Timeline) (url : String) (reply : Option ScriptedReply) : Timeline :=
  let others := t.script.filter (fun entry => entry.1 ≠ url)
  { t with script := (reply.map (url, ·)).toList ++ others }

def outcomeOf (c : Cycle) (ticket : Nat) : FetchOutcome :=
  match c.active.find? (fun task => task.ticket = ticket) with
  | some (.fetched _ _ true) => .changed
  | some (.fetched _ _ false) => .unchanged
  | _ => .failed

/-- Ends a download at this instant and writes its outcome to the cache. -/
def finishDownload (t : Timeline) (run : Run) (d : Download) : Timeline × Run :=
  let received := run.cycle.receive d.ticket d.reply
  let record : FetchRecord :=
    { startedAt := d.startedAt, endedAt := t.elapsed, url := d.url, id := d.id
      outcome := outcomeOf received d.ticket }
  let (store, cycle) := received.persist t.service.store Faults.none t.now d.ticket
  ({ t with
      service := { t.service with store }
      inFlight := t.inFlight - 1
      log := record :: t.log },
    { run with cycle, downloads := run.downloads.filter (fun other => other.ticket ≠ d.ticket) })

/-- Starts downloads while the limit allows. An answer without delay comes before the next start. -/
def launchUpTo : Nat → Timeline → Run → Timeline × Run
  | 0, t, run => (t, run)
  | n + 1, t, run =>
    match run.cycle.launch? t.service.store Faults.none t.policy.limit with
    | none => (t, run)
    | some (cycle, f) =>
      let answer := t.scripted f.url
      let download : Download :=
        { ticket := run.cycle.started, url := f.url, id := f.id, startedAt := t.elapsed
          dueAt := t.elapsed + answer.delay, reply := answer.reply }
      let started :=
        { t with inFlight := t.inFlight + 1, peak := max t.peak (t.inFlight + 1) }
      let running := { run with cycle, downloads := run.downloads ++ [download] }
      if answer.delay = 0 then
        let (finished, rest) := started.finishDownload running download
        launchUpTo n finished rest
      else launchUpTo n started running

def launchAll (t : Timeline) (run : Run) : Timeline × Run :=
  launchUpTo run.cycle.waiting.length t run

def job? (t : Timeline) : Option Job :=
  t.jobs.getLast?.map StartedJob.job

/-- Changes the jobs with a number. Each number belongs to one job. -/
def changeJob (t : Timeline) (number : Nat) (f : Job → Job) : Timeline :=
  { t with jobs := t.jobs.map fun s => if s.number = number then { s with job := f s.job } else s }

/-- Hands the result of a cycle to its owner. -/
def deliver (t : Timeline) (owner : CycleOwner) (result : Except Error Nat) : Timeline :=
  match owner with
  | .job number => t.changeJob number (Job.finishCycle · result)
  | _ => { t with ended := t.ended ++ [(owner, result)] }

/-- Concludes a cycle whose working copies are all through, or keeps it under way. -/
def concludeOrKeep (t : Timeline) (run : Run) : Timeline :=
  if run.cycle.isDone then
    let (service, result) := run.cycle.conclude t.service
    ({ t with service } : Timeline).deliver run.owner result
  else { t with runs := t.runs ++ [run] }

def beginCycle (t : Timeline) (owner : CycleOwner) (force : Bool) : Timeline :=
  let (launched, run) :=
    t.launchAll { owner, cycle := .begin t.service t.policy t.now force }
  launched.concludeOrKeep run

def wakeJob (number : Nat) (t : Timeline) : Timeline :=
  match t.jobs.find? (fun s => s.number = number) with
  | none => t
  | some s =>
    let (next, action) := s.job.step t.elapsed .wakes
    let woken := t.changeJob number (fun _ => next)
    match action with
    | some .forcedCycle => woken.beginCycle (.job number) true
    | some .timedCycle => woken.beginCycle (.job number) false
    | _ => woken

/-- At one instant a job can run a forced cycle, one for each tick that is due and not too late, and
then stop. -/
def settleJob (t : Timeline) (number : Nat) : Timeline :=
  Nat.repeat (wakeJob number) (Job.tolerance + 3) t

def settleJobs (t : Timeline) : Timeline :=
  t.jobs.foldl (fun settled s => settled.settleJob s.number) t

def resume (t : Timeline) (run : Run) : Timeline :=
  let due := run.downloads.filter (fun d => d.dueAt ≤ t.elapsed)
  let (finished, rest) :=
    due.foldl (fun (state : Timeline × Run) d => state.1.finishDownload state.2 d) (t, run)
  let (launched, running) := finished.launchAll rest
  launched.concludeOrKeep running

def settle (t : Timeline) : Timeline :=
  (t.runs.foldl resume { t with runs := [] }).settleJobs

def nextDue? (t : Timeline) : Option Nat :=
  let downloads := t.runs.flatMap (fun run => run.downloads.map Download.dueAt)
  let ticks := t.jobs.filterMap (fun s => s.job.nextTick?)
  (downloads ++ ticks).min?

/-- Moves the clock to the next event before the target, over and over, and then to the target. Each
event but the first is at least a millisecond later than the one before. -/
def advanceTo (target : Nat) : Nat → Timeline → Timeline
  | 0, t => { t with elapsed := target }
  | n + 1, t =>
    match t.nextDue? with
    | none => { t with elapsed := target }
    | some due =>
      if due < target then
        advanceTo target n { t with elapsed := max t.elapsed due }.settle
      else { t with elapsed := target }

def sleep (t : Timeline) (millis : Nat) : Timeline :=
  advanceTo (t.elapsed + millis) (millis + 1) t

def advanceUntilEnded (owner : CycleOwner) : Nat → Timeline → Timeline
  | 0, t => t
  | n + 1, t =>
    if t.ended.any (fun entry => entry.1 = owner) then t
    else
      match t.nextDue? with
      | none => t
      | some due => advanceUntilEnded owner n { t with elapsed := max t.elapsed due }.settle

/-- The longest time that an owner's cycle can still take. -/
def patience (t : Timeline) (owner : CycleOwner) : Nat :=
  (t.runs.filter (fun run => run.owner = owner)).foldl (fun total run =>
    let waiting := run.cycle.waiting.map (fun f => (t.scripted f.url).delay)
    let active := run.downloads.map (fun d => d.dueAt - t.elapsed)
    (waiting ++ active).foldl (· + ·) total) 1

def await (t : Timeline) (owner : CycleOwner) : Timeline × Option (Except Error Nat) :=
  let done := advanceUntilEnded owner (t.patience owner) t
  ({ done with ended := done.ended.filter (fun entry => entry.1 ≠ owner) }, done.ended.lookup owner)

def refresh (t : Timeline) (force : Bool) : Timeline × Option (Except Error Nat) :=
  (t.beginCycle .caller force).await .caller

/-- Begins a cycle that nobody waits for. The clock moves by a millisecond. -/
def spawnRefresh (t : Timeline) (force : Bool) : Timeline :=
  let number := t.backgroundCount
  let counted :=
    { t with backgroundCount := number + 1, unjoined := t.unjoined ++ [number] }
  (counted.beginCycle (.background number) force).sleep 1

/-- Waits for the oldest background cycle that nobody has waited for. -/
def joinRefresh (t : Timeline) : Timeline × Option (Except Error Nat) :=
  match t.unjoined with
  | [] => (t, none)
  | number :: rest => { t with unjoined := rest }.await (.background number)

def setPaused (t : Timeline) (paused : Bool) : Timeline :=
  { t with policy := { t.policy with paused } }

def defaultJobInterval : Nat := 60000

/-- Gives up the job that a runner holds, and the cycle that it is in. The downloads of the cycle
never end, so they stay in flight. -/
def releaseHeld (t : Timeline) : Timeline :=
  let given := (t.jobs.filter StartedJob.held).map fun s => CycleOwner.job s.number
  { t with
    jobs := t.jobs.filter (fun s => !s.held)
    runs := t.runs.filter (fun run => !given.contains run.owner) }

/-- Starts a job, which runs before anything else that is due now. The clock moves by a millisecond,
as it does when the job is asked for something. -/
def startJob (t : Timeline) (interval : Nat) (forceFirst held : Bool) : Timeline :=
  let job := Job.start interval t.elapsed
  let job := if forceFirst then job.requestForce else job
  let number := t.jobCount
  let kept := t.releaseHeld
  let started : Timeline :=
    { kept with jobs := kept.jobs ++ [{ number, held, job }], jobCount := number + 1 }
  (started.settleJob number).sleep 1

/-- Asks the job for something, which it does before anything else that is due now. -/
def askJob (t : Timeline) (f : Job → Job) : Timeline :=
  match t.jobs.getLast? with
  | some s => ((t.changeJob s.number f).settleJob s.number).sleep 1
  | none => t.sleep 1

def forceJob (t : Timeline) : Timeline :=
  t.askJob Job.requestForce

def cancelJob (t : Timeline) : Timeline :=
  t.askJob Job.cancel

/-- The downloads that ended since the last call, in order, and the peak since then. -/
def takeLog (t : Timeline) : Timeline × List FetchRecord × Nat :=
  ({ t with log := [], peak := 0 }, t.log.mergeSort FetchRecord.le, t.peak)

end Timeline

end FilterLists
