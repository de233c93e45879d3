import FilterLists.Proofs.Job.Step

/-! Timed cycles on the clock. A tick that is taken sets the deadline of the next one an interval
later, so no two timed cycles start closer together than that, but for the tolerance. What was
missed while the job was busy is not made up for. -/
namespace FilterLists.Job
variable {j : Job} {events : List (Nat × JobEvent)} {interval deadline now : Nat}

def timedStarts (j : Job) (events : List (Nat × JobEvent)) : List Nat :=
  ((j.run events).2.filter (fun action => action.2 = .timedCycle)).map Prod.fst

/-- How many timed cycles start from a moment on, within some milliseconds. -/
def startsWithin (j : Job) (events : List (Nat × JobEvent)) (moment length : Nat) : Nat :=
  (j.timedStarts events).countP (fun s => moment ≤ s ∧ s ≤ moment + length)

/-- The deadline after a last start of a timed cycle: an interval later, but for the tolerance.
Before the first start it is the given one. -/
def FollowsStart (interval first deadline : Nat) : Option Nat → Prop
  | none => deadline = first
  | some s => s + interval ≤ deadline + tolerance ∧ deadline ≤ s + interval

theorem deadline_add_le_nextDeadline (interval deadline now : Nat) :
    deadline + interval ≤ nextDeadline interval deadline now := by
  unfold nextDeadline
  split <;> omega

theorem now_add_le_nextDeadline (interval deadline now : Nat) :
    now + interval ≤ nextDeadline interval deadline now + tolerance := by
  unfold nextDeadline
  split <;> omega

theorem nextDeadline_le_now_add (interval : Nat) (h : deadline ≤ now) :
    nextDeadline interval deadline now ≤ now + interval := by
  unfold nextDeadline
  split <;> omega

/-- A tick that was missed puts off all that follow. -/
theorem nextDeadline_of_late (h : deadline + tolerance < now) :
    nextDeadline interval deadline now = now + interval :=
  if_pos h

/-- An event starts a timed cycle that is due and sets the timer anew, or leaves the timer alone. -/
theorem timer_cases (j : Job) (now : Nat) (event : JobEvent) :
    (j.step now event).1.interval = j.interval ∧
    (((j.step now event).2 = some .timedCycle ∧ j.deadline ≤ now ∧
        (j.step now event).1.deadline = nextDeadline j.interval j.deadline now) ∨
      ((j.step now event).2 ≠ some .timedCycle ∧ (j.step now event).1.deadline = j.deadline)) := by
  cases event with
  | requested => exact ⟨rfl, .inr ⟨by simp [step], rfl⟩⟩
  | cancelled => exact ⟨rfl, .inr ⟨by simp [step], rfl⟩⟩
  | wakes =>
    obtain ⟨-, -, hstep⟩ | ⟨-, -, -, hstep⟩ | ⟨-, -, -, hdue, hstep⟩ | ⟨-, hstep⟩ :=
      j.wakes_cases now <;> rw [hstep]
    · exact ⟨rfl, .inr ⟨by simp, rfl⟩⟩
    · exact ⟨rfl, .inr ⟨by simp, rfl⟩⟩
    · exact ⟨rfl, .inl ⟨rfl, hdue, rfl⟩⟩
    · exact ⟨j.rest_interval, .inr ⟨by simp, j.rest_deadline⟩⟩
  | cycleEnds result =>
    simp only [step]
    split
    · cases result <;> simp [finishCycle]
    · exact ⟨rfl, .inr ⟨by simp, rfl⟩⟩

/-- The starts begin with that of the first event, or they are those of the rest. -/
theorem timedStarts_cases (j : Job) (now : Nat) (event : JobEvent)
    (rest : List (Nat × JobEvent)) :
    let next := (j.step now event).1
    next.interval = j.interval ∧
    ((j.deadline ≤ now ∧ next.deadline = nextDeadline j.interval j.deadline now ∧
        j.timedStarts ((now, event) :: rest) = now :: next.timedStarts rest) ∨
      (next.deadline = j.deadline ∧
        j.timedStarts ((now, event) :: rest) = next.timedStarts rest)) := by
  intro next
  have hactions : (j.run ((now, event) :: rest)).2 =
      ((j.step now event).2.map (now, ·)).toList ++ (next.run rest).2 :=
    actions_cons j now event rest
  obtain ⟨hinterval, ⟨htimed, hdue, hdeadline⟩ | ⟨huntimed, hdeadline⟩⟩ := j.timer_cases now event
  · refine ⟨hinterval, .inl ⟨hdue, hdeadline, ?_⟩⟩
    simp [timedStarts, hactions, htimed]
  · refine ⟨hinterval, .inr ⟨hdeadline, ?_⟩⟩
    cases haction : (j.step now event).2 with
    | none => simp [timedStarts, hactions, haction]
    | some action =>
      have hother : action ≠ .timedCycle := fun h => huntimed (haction.trans (congrArg some h))
      simp [timedStarts, hactions, haction, hother]

theorem interval_run (j : Job) (events : List (Nat × JobEvent)) :
    (j.run events).1.interval = j.interval := by
  induction events generalizing j with
  | nil => rfl
  | cons e rest ih => exact (ih _).trans (j.timer_cases e.1 e.2).1

/-- No timed cycle starts before the deadline. -/
theorem deadline_le_of_mem_timedStarts {s : Nat} (hs : s ∈ j.timedStarts events) :
    j.deadline ≤ s := by
  induction events generalizing j with
  | nil => cases hs
  | cons e rest ih =>
    obtain ⟨-, ⟨hdue, hnext, hstarts⟩ | ⟨hnext, hstarts⟩⟩ := j.timedStarts_cases e.1 e.2 rest
    · rw [hstarts] at hs
      rcases List.mem_cons.mp hs with rfl | hlater
      · exact hdue
      · have hdeadline := deadline_add_le_nextDeadline j.interval j.deadline e.1
        have hle := ih hlater
        omega
    · rw [hstarts] at hs
      exact hnext ▸ ih hs

theorem pairwise_timedStarts (j : Job) (events : List (Nat × JobEvent)) :
    (j.timedStarts events).Pairwise (fun s t => s + j.interval ≤ t + tolerance) := by
  induction events generalizing j with
  | nil => exact List.Pairwise.nil
  | cons e rest ih =>
    obtain ⟨hinterval, ⟨hdue, hnext, hstarts⟩ | ⟨-, hstarts⟩⟩ := j.timedStarts_cases e.1 e.2 rest
    · rw [hstarts]
      refine List.pairwise_cons.mpr ⟨fun t ht => ?_, hinterval ▸ ih _⟩
      have hlater := deadline_le_of_mem_timedStarts ht
      have hnextDue := now_add_le_nextDeadline j.interval j.deadline e.1
      omega
    · rw [hstarts]
      exact hinterval ▸ ih _

/-- Deadlines are an interval apart, so each start up to a moment but the first takes as much. -/
theorem deadline_add_le_of_lt_countP {last n : Nat}
    (h : n < (j.timedStarts events).countP (· ≤ last)) : j.deadline + n * j.interval ≤ last := by
  induction events generalizing j n with
  | nil => cases h
  | cons e rest ih =>
    obtain ⟨hinterval, ⟨hdue, hnext, hstarts⟩ | ⟨hnext, hstarts⟩⟩ :=
      j.timedStarts_cases e.1 e.2 rest
    · have hdeadline := deadline_add_le_nextDeadline j.interval j.deadline e.1
      rw [hstarts, List.countP_cons] at h
      by_cases hnow : e.1 ≤ last
      · rw [if_pos (decide_eq_true hnow)] at h
        cases n with
        | zero => omega
        | succ n =>
          have hrest := ih (Nat.lt_of_succ_lt_succ h)
          rw [hinterval, hnext] at hrest
          rw [Nat.succ_mul]
          omega
      · rw [if_neg (by simpa using hnow)] at h
        have hrest := ih h
        rw [hinterval, hnext] at hrest
        omega
    · rw [hstarts] at h
      have hrest := ih h
      rwa [hinterval, hnext] at hrest

theorem startsWithin_le_countP (j : Job) (events : List (Nat × JobEvent)) (moment length : Nat) :
    j.startsWithin events moment length ≤
      (j.timedStarts events).countP (· ≤ moment + length) := by
  refine List.countP_mono_left fun s _ hs => ?_
  rw [decide_eq_true_eq] at hs ⊢
  exact hs.2

theorem startsWithin_of_start {next : Job} {rest : List (Nat × JobEvent)} {s : Nat}
    (hstarts : j.timedStarts events = s :: next.timedStarts rest) (moment length : Nat) :
    j.startsWithin events moment length =
      next.startsWithin rest moment length +
        if moment ≤ s ∧ s ≤ moment + length then 1 else 0 := by
  rw [startsWithin, hstarts, List.countP_cons, startsWithin]
  simp only [decide_eq_true_eq]

/-- In a stretch of time each start but the first takes an interval, less the tolerance once. -/
theorem startsWithin_le (j : Job) (events : List (Nat × JobEvent)) (moment length : Nat) :
    (j.startsWithin events moment length - 1) * j.interval ≤ length + tolerance := by
  induction events generalizing j with
  | nil => simp [startsWithin, timedStarts, run]
  | cons e rest ih =>
    have hrest := ih (j.step e.1 e.2).1
    obtain ⟨hinterval, ⟨-, hnext, hstarts⟩ | ⟨-, hstarts⟩⟩ := j.timedStarts_cases e.1 e.2 rest
    · rw [startsWithin_of_start hstarts]
      by_cases hin : moment ≤ e.1 ∧ e.1 ≤ moment + length
      · rw [if_pos hin, Nat.add_sub_cancel]
        -- this start sets the next deadline, and those after it keep the distance from there
        have hlater := now_add_le_nextDeadline j.interval j.deadline e.1
        have hfewer := (j.step e.1 e.2).1.startsWithin_le_countP rest moment length
        cases hn : (j.step e.1 e.2).1.startsWithin rest moment length with
        | zero => simp
        | succ n =>
          rw [hn] at hfewer
          have hlast := deadline_add_le_of_lt_countP (Nat.lt_of_succ_le hfewer)
          rw [hinterval, hnext] at hlast
          rw [Nat.succ_mul]
          omega
      · rwa [if_neg hin, Nat.add_zero, ← hinterval]
    · rwa [startsWithin, hstarts, ← startsWithin, ← hinterval]

theorem followsStart_run (j : Job) (events : List (Nat × JobEvent)) :
    FollowsStart j.interval j.deadline (j.run events).1.deadline
      (j.timedStarts events).getLast? := by
  induction events generalizing j with
  | nil => rfl
  | cons e rest ih =>
    have hrest := ih (j.step e.1 e.2).1
    obtain ⟨hinterval, ⟨hdue, hnext, hstarts⟩ | ⟨hnext, hstarts⟩⟩ :=
      j.timedStarts_cases e.1 e.2 rest
    · have hrun : (j.run (e :: rest)).1 = ((j.step e.1 e.2).1.run rest).1 := run_cons ..
      rw [hinterval, hnext] at hrest
      rw [hstarts, List.getLast?_cons, hrun]
      cases hlast : ((j.step e.1 e.2).1.timedStarts rest).getLast? with
      | none =>
        rw [hlast] at hrest
        have hkept : ((j.step e.1 e.2).1.run rest).1.deadline =
            nextDeadline j.interval j.deadline e.1 := hrest
        rw [hkept]
        exact ⟨now_add_le_nextDeadline _ _ _, nextDeadline_le_now_add _ hdue⟩
      | some s =>
        rw [hlast] at hrest
        exact hrest
    · rw [hinterval, hnext] at hrest
      rw [hstarts]
      exact hrest

/-- However long cycles take and whenever forced ones are requested, timed cycles start an interval
apart, but for the tolerance, and that does not add up: `n + 1` of them take `n` intervals, less the
tolerance once, so no two start at one moment unless the interval lies within the tolerance. The
first tick is due at once, and each later one an interval after the last start, again but for the
tolerance; a job that is free takes it from then on. One that is taken too late for the tolerance
keeps the next start a full interval away. -/
theorem timed_cycles_never_bunch (interval began : Nat) (events : List (Nat × JobEvent)) :
    let first := start interval began
    let j := (first.run events).1
    (first.timedStarts events).Pairwise (fun s t => s + interval ≤ t + tolerance) ∧
    (∀ moment length,
      (first.startsWithin events moment length - 1) * interval ≤ length + tolerance) ∧
    FollowsStart interval began j.deadline (first.timedStarts events).getLast? ∧
    (j.phase = .waiting → j.cancelled = false → j.forceRequested = false →
      ∀ now, (j.step now .wakes).2 = some .timedCycle ↔ j.deadline ≤ now) ∧
    ∀ now, (j.step now .wakes).2 = some .timedCycle → j.deadline + tolerance < now →
      ∀ more, ∀ s ∈ (j.step now .wakes).1.timedStarts more, now + interval ≤ s := by
  intro first j
  refine ⟨first.pairwise_timedStarts events, first.startsWithin_le events,
    first.followsStart_run events, fun hphase hcancelled hforce now =>
      takesTick_iff hphase hcancelled hforce, fun now htimed hlate more s hs => ?_⟩
  have hinterval : j.interval = interval := first.interval_run events
  obtain ⟨-, ⟨-, -, hdeadline⟩ | ⟨huntimed, -⟩⟩ := j.timer_cases now .wakes
  · rw [nextDeadline_of_late hlate, hinterval] at hdeadline
    exact hdeadline ▸ deadline_le_of_mem_timedStarts hs
  · exact absurd htimed huntimed

/-- Two ticks are missed in a long cycle, and one cycle comes in their place. -/
example : (start 100 0).timedStarts
    [(0, .wakes), (250, .cycleEnds (.ok 0)), (250, .wakes), (260, .cycleEnds (.ok 0)),
      (300, .wakes), (350, .wakes)] = [0, 250, 350] := by decide

end FilterLists.Job
