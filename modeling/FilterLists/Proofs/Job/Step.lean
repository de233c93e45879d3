import FilterLists.Job

/-! What one event can do to a job, and what a job has done in a sequence of events. -/
namespace FilterLists

/-- What matters of the past of a job: requests, and what the job did by itself. It comes to rest
when it waits and finds nothing to do. -/
inductive Happening
  | requested
  | rests
  | did (action : JobAction)
deriving DecidableEq, Repr

namespace Job
variable {j : Job} {now : Nat} {events : List (Nat × JobEvent)}

def onWaking (phase : JobPhase) : Option JobAction → List Happening
  | some action => [.did action]
  | none =>
    match phase with
    | .waiting => [.rests]
    | _ => []

/-- What an event adds to the past. -/
def happenings (j : Job) (now : Nat) : JobEvent → List Happening
  | .requested => [.requested]
  | .wakes => onWaking j.phase (j.step now .wakes).2
  | .cancelled | .cycleEnds _ => []

def history (j : Job) : List (Nat × JobEvent) → List Happening
  | [] => []
  | (now, event) :: rest => j.happenings now event ++ (j.step now event).1.history rest

theorem run_cons (j : Job) (now : Nat) (event : JobEvent) (rest : List (Nat × JobEvent)) :
    (j.run ((now, event) :: rest)).1 = ((j.step now event).1.run rest).1 :=
  rfl

theorem actions_cons (j : Job) (now : Nat) (event : JobEvent) (rest : List (Nat × JobEvent)) :
    (j.run ((now, event) :: rest)).2 =
      ((j.step now event).2.map (now, ·)).toList ++ ((j.step now event).1.run rest).2 :=
  rfl

@[simp]
theorem rest_interval (j : Job) : j.rest.interval = j.interval := by
  unfold rest
  split <;> rfl

@[simp]
theorem rest_deadline (j : Job) : j.rest.deadline = j.deadline := by
  unfold rest
  split <;> rfl

@[simp]
theorem rest_cancelled (j : Job) : j.rest.cancelled = j.cancelled := by
  unfold rest
  split <;> rfl

@[simp]
theorem rest_phase (j : Job) : j.rest.phase = j.phase := by
  unfold rest
  split <;> rfl

/-- A job that waits obeys a cancellation, then a request, then a tick that is due, or else it comes
to rest; any other job does nothing when it wakes. -/
theorem wakes_cases (j : Job) (now : Nat) :
    (j.phase = .waiting ∧ j.cancelled = true ∧
      j.step now .wakes = (j.perform now .stop, some .stop)) ∨
    (j.phase = .waiting ∧ j.cancelled = false ∧ j.forceRequested = true ∧
      j.step now .wakes = (j.perform now .forcedCycle, some .forcedCycle)) ∨
    (j.phase = .waiting ∧ j.cancelled = false ∧ j.forceRequested = false ∧ j.deadline ≤ now ∧
      j.step now .wakes = (j.perform now .timedCycle, some .timedCycle)) ∨
    ((j.phase = .waiting → j.cancelled = false ∧ j.forceRequested = false ∧ now < j.deadline) ∧
      j.step now .wakes = (j.rest, none)) := by
  unfold step action?
  cases hphase : j.phase with
  | waiting =>
    cases hcancelled : j.cancelled with
    | true => exact .inl ⟨rfl, rfl, rfl⟩
    | false =>
      cases hforce : j.forceRequested with
      | true => exact .inr (.inl ⟨rfl, rfl, rfl, rfl⟩)
      | false =>
        by_cases hdue : j.deadline ≤ now
        · exact .inr (.inr (.inl ⟨rfl, rfl, rfl, hdue, by simp [hdue]⟩))
        · exact .inr (.inr (.inr ⟨fun _ => ⟨rfl, rfl, by omega⟩, by simp [hdue]⟩))
  | cycling => exact .inr (.inr (.inr ⟨nofun, rfl⟩))
  | ended result => exact .inr (.inr (.inr ⟨nofun, rfl⟩))

/-- A job with nothing else to do takes a tick from its deadline on. -/
theorem takesTick_iff (hphase : j.phase = .waiting) (hcancelled : j.cancelled = false)
    (hforce : j.forceRequested = false) :
    (j.step now .wakes).2 = some .timedCycle ↔ j.deadline ≤ now := by
  by_cases hdue : j.deadline ≤ now <;> simp [step, action?, hphase, hcancelled, hforce, hdue]

end Job

end FilterLists
