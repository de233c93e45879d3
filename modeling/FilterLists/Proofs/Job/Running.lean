import FilterLists.Proofs.Job.Step
import FilterLists.Proofs.Refresh.Script

/-! A job and the service that its cycles run on. The job begins a cycle where it decides to, and it
hears of the result when the cycle ends; in between the cycle moves and users ask the service for
whatever they like, and none of that reaches the job. -/
namespace FilterLists

def ServiceEvent.isBoundary : ServiceEvent → Bool
  | .cycleBegins .. | .cycleEnds .. => true
  | _ => false

/-- What can happen to a job and its service. -/
inductive Occurrence
  | requested
  | cancelled
  /-- The job gets to run, at a time of day. -/
  | wakes (now : Instant)
  /-- A cycle ends. Where the engine is asked to serve what the cycle has brought, it may refuse
  that for a reason of its own. -/
  | ends (cycle : Nat) (refusal : Option Error)
  /-- Anything but the beginning or the end of a cycle happens to the service. -/
  | happens (e : ServiceEvent)

/-- At its end the cycle has the engine serve what it has brought. -/
def Cycle.asksEngine (c : Cycle) (s : Service) : Bool :=
  decide (0 < (s.registry.merge c.results).2) && s.engine.running

/-- The service after a cycle, and the result. -/
def Cycle.ending? (c : Cycle) (s : Service) :
    Option Error → Option (Service × Except Error Nat)
  | none => if c.isDone then some (c.conclude s) else none
  | some e =>
    if c.isDone && c.asksEngine s then
      some ({ s with registry := (s.registry.merge c.results).1 }, .error e)
    else none

def LiveService.without (l : LiveService) (place : Nat) (service : Service)
    (result : Except Error Nat) : LiveService :=
  { l with service, cycles := l.cycles.eraseIdx place, ended := result :: l.ended }

structure RunningJob where
  job : Job
  live : LiveService

namespace RunningJob

def start (interval now : Nat) (live : LiveService) : RunningJob :=
  { job := .start interval now, live }

def ending? (w : RunningJob) (place : Nat) (refusal : Option Error) :
    Option (Service × Except Error Nat) :=
  w.live.cycles[place]?.bind fun c => c.ending? w.live.service refusal

def jobEvent? (w : RunningJob) : Occurrence → Option JobEvent
  | .requested => some .requested
  | .cancelled => some .cancelled
  | .wakes _ => some .wakes
  | .ends place refusal => (w.ending? place refusal).map fun ending => .cycleEnds ending.2
  | .happens _ => none

def action? (w : RunningJob) (now : Nat) (o : Occurrence) : Option JobAction :=
  (w.jobEvent? o).bind fun e => (w.job.step now e).2

/-- The service once the job has done something by itself. -/
def follow (w : RunningJob) (day : Instant) : Option JobAction → LiveService
  | some .forcedCycle => w.live.step (.cycleBegins day true)
  | some .timedCycle => w.live.step (.cycleBegins day false)
  | some .stop | none => w.live

def liveAfter (w : RunningJob) (now : Nat) : Occurrence → LiveService
  | .wakes day => w.follow day (w.action? now (.wakes day))
  | .ends place refusal =>
    match w.ending? place refusal with
    | some (service, result) => w.live.without place service result
    | none => w.live
  | .happens e => if e.isBoundary then w.live else w.live.step e
  | .requested | .cancelled => w.live

def step (w : RunningJob) (now : Nat) (o : Occurrence) : RunningJob :=
  { job := ((w.jobEvent? o).map fun e => (w.job.step now e).1).getD w.job
    live := w.liveAfter now o }

def run (w : RunningJob) : List (Nat × Occurrence) → RunningJob
  | [] => w
  | (now, o) :: rest => (w.step now o).run rest

def actions (w : RunningJob) : List (Nat × Occurrence) → List JobAction
  | [] => []
  | (now, o) :: rest => (w.action? now o).toList ++ (w.step now o).actions rest

variable {w : RunningJob}

/-- Only the beginnings and the ends of cycles change how many there are and what has ended. -/
theorem cycles_frame (l : LiveService) {e : ServiceEvent} (he : e.isBoundary = false) :
    (l.step e).ended = l.ended ∧ (l.step e).cycles.length = l.cycles.length := by
  cases e with
  | cycleBegins | cycleEnds => cases he
  | downloadStarts place faults =>
    simp only [LiveService.step]
    split
    · exact ⟨rfl, List.length_set⟩
    · exact ⟨rfl, rfl⟩
  | downloadEnds place ticket reply => exact ⟨rfl, List.length_modify ..⟩
  | persists place ticket faults now =>
    simp only [LiveService.step]
    split
    · exact ⟨rfl, List.length_set⟩
    · exact ⟨rfl, rfl⟩
  | addProceeds place =>
    simp only [LiveService.step]
    split <;> exact ⟨rfl, rfl⟩
  | removeProceeds place faults =>
    simp only [LiveService.step]
    split <;> exact ⟨rfl, rfl⟩
  | addBegins | removeBegins | switches | loadsAll | deduplicates | assignsId | raisesIdFloor
  | setsUserRules | fileVanishes => exact ⟨rfl, rfl⟩

theorem step_happens (w : RunningJob) (now : Nat) {e : ServiceEvent} (he : e.isBoundary = false) :
    w.step now (.happens e) = { w with live := w.live.step e } := by
  simp only [step, jobEvent?, liveAfter, he, Option.map_none, Option.getD_none, Bool.false_eq_true,
    if_false]

/-- Without a refusal the service takes the end of a cycle as the event that it is. -/
theorem liveAfter_ends (w : RunningJob) (now place : Nat) :
    w.liveAfter now (.ends place none) = w.live.step (.cycleEnds place) := by
  simp only [liveAfter, ending?, LiveService.step, LiveService.endCycle]
  cases w.live.cycles[place]? with
  | none => rfl
  | some c => cases hdone : c.isDone <;> simp [Cycle.ending?, LiveService.without, hdone]

theorem step_ends {place : Nat} {refusal : Option Error} {service : Service}
    {result : Except Error Nat} (h : w.ending? place refusal = some (service, result)) (now : Nat) :
    w.action? now (.ends place refusal) = none ∧
      w.step now (.ends place refusal) =
        { job := (w.job.step now (.cycleEnds result)).1
          live := w.live.without place service result } := by
  have hquiet : (w.job.step now (.cycleEnds result)).2 = none := by
    simp only [Job.step]
    split <;> rfl
  constructor
  · rw [action?, jobEvent?, h]
    exact hquiet
  · simp only [step, jobEvent?, liveAfter, h, Option.map_some, Option.getD_some]

/-- A cycle that is not there, or not ready, or that gives the engine nothing to refuse. -/
theorem step_ends_none {place : Nat} {refusal : Option Error} (h : w.ending? place refusal = none)
    (now : Nat) :
    w.action? now (.ends place refusal) = none ∧ w.step now (.ends place refusal) = w := by
  constructor
  · rw [action?, jobEvent?, h]
    rfl
  · simp only [step, jobEvent?, liveAfter, h, Option.map_none, Option.getD_none]

/-- What one occurrence can do. -/
inductive Effect (w : RunningJob) (now : Nat) (o : Occurrence) : Prop
  | requests (ho : o = .requested) (haction : w.action? now o = none)
      (hstep : w.step now o = { w with job := w.job.requestForce })
  | cancels (ho : o = .cancelled) (haction : w.action? now o = none)
      (hstep : w.step now o = { w with job := w.job.cancel })
  | stops (hphase : w.job.phase = .waiting) (hcancelled : w.job.cancelled = true)
      (haction : w.action? now o = some .stop)
      (hstep : w.step now o = { w with job := w.job.perform now .stop })
  | begins (day : Instant) (force : Bool) (action : JobAction) (hphase : w.job.phase = .waiting)
      (hcancelled : w.job.cancelled = false)
      (hcycle : action = .forcedCycle ∨ action = .timedCycle)
      (haction : w.action? now o = some action)
      (hstep : w.step now o =
        { job := w.job.perform now action, live := w.live.step (.cycleBegins day force) })
  | ends (place : Nat) (c : Cycle) (service : Service) (result : Except Error Nat)
      (hc : w.live.cycles[place]? = some c) (haction : w.action? now o = none)
      (hstep : w.step now o =
        { job := (w.job.step now (.cycleEnds result)).1
          live := w.live.without place service result })
  | passes (haction : w.action? now o = none)
      (hphase : (w.step now o).job.phase = w.job.phase)
      (hcancelled : (w.step now o).job.cancelled = w.job.cancelled)
      (hended : (w.step now o).live.ended = w.live.ended)
      (hlength : (w.step now o).live.cycles.length = w.live.cycles.length)

/-- The job wakes, and stops, begins a cycle or finds nothing to do. -/
theorem effect_wakes (w : RunningJob) (now : Nat) (day : Instant) : w.Effect now (.wakes day) := by
  have haction : w.action? now (.wakes day) = (w.job.step now .wakes).2 := rfl
  have hstep : w.step now (.wakes day) =
      { job := (w.job.step now .wakes).1, live := w.follow day (w.job.step now .wakes).2 } := rfl
  obtain ⟨hphase, hcancelled, hwakes⟩ | ⟨hphase, hcancelled, -, hwakes⟩ |
      ⟨hphase, hcancelled, -, -, hwakes⟩ | ⟨-, hwakes⟩ := w.job.wakes_cases now
  · rw [hwakes] at haction hstep
    exact .stops hphase hcancelled haction hstep
  · rw [hwakes] at haction hstep
    exact .begins day true _ hphase hcancelled (.inl rfl) haction hstep
  · rw [hwakes] at haction hstep
    exact .begins day false _ hphase hcancelled (.inr rfl) haction hstep
  · rw [hwakes] at haction hstep
    exact .passes haction (by rw [hstep]; exact w.job.rest_phase)
      (by rw [hstep]; exact w.job.rest_cancelled) (by rw [hstep]; rfl) (by rw [hstep]; rfl)

theorem effect (w : RunningJob) (now : Nat) (o : Occurrence) : w.Effect now o := by
  cases o with
  | requested => exact .requests rfl rfl rfl
  | cancelled => exact .cancels rfl rfl rfl
  | wakes day => exact w.effect_wakes now day
  | ends place refusal =>
    cases hending : w.ending? place refusal with
    | none =>
      obtain ⟨haction, hsame⟩ := step_ends_none hending now
      exact .passes haction (by rw [hsame]) (by rw [hsame]) (by rw [hsame]) (by rw [hsame])
    | some ending =>
      obtain ⟨haction, hstep⟩ := step_ends hending now
      obtain ⟨c, hc, -⟩ := Option.bind_eq_some_iff.mp hending
      exact .ends place c ending.1 ending.2 hc haction hstep
  | happens e =>
    cases hboundary : e.isBoundary with
    | true =>
      have hsame : w.step now (.happens e) = w := by
        simp only [step, jobEvent?, liveAfter, hboundary, Option.map_none, Option.getD_none, if_true]
      exact .passes rfl (by rw [hsame]) (by rw [hsame]) (by rw [hsame]) (by rw [hsame])
    | false =>
      have hstep := w.step_happens now hboundary
      obtain ⟨hended, hlength⟩ := cycles_frame w.live hboundary
      exact .passes rfl (by rw [hstep]) (by rw [hstep]) (by rw [hstep]; exact hended)
        (by rw [hstep]; exact hlength)

end RunningJob

end FilterLists
