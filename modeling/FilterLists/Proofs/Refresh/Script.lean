import FilterLists.Proofs.Refresh.Conclusion

/-! Cycles that nothing else comes between. The moves of such a cycle are in any order that the
cycle allows, and they reach only the cache until the cycle ends. -/
namespace FilterLists

def Reply.plainText (body : String) : Reply :=
  .answered 200 (some (bytesOf "text/plain")) (.ok (bytesOf body))

/-- What can happen to a cycle between its beginning and its end. -/
inductive CycleMove
  | downloadStarts (faults : Faults)
  | downloadEnds (ticket : Nat) (reply : Reply)
  | persists (ticket : Nat) (faults : Faults) (now : Instant)

def CycleMove.event (place : Nat) : CycleMove → ServiceEvent
  | .downloadStarts faults => .downloadStarts place faults
  | .downloadEnds ticket reply => .downloadEnds place ticket reply
  | .persists ticket faults now => .persists place ticket faults now

structure CycleScript where
  now : Instant
  force : Bool
  moves : List CycleMove

def CycleScript.events (script : CycleScript) : List ServiceEvent :=
  .cycleBegins script.now script.force :: (script.moves.map (CycleMove.event 0) ++ [.cycleEnds 0])

def Cycle.move (limit : Nat) (state : Store × Cycle) : CycleMove → Store × Cycle
  | .downloadStarts faults =>
    (state.1, ((state.2.launch? state.1 faults limit).map Prod.fst).getD state.2)
  | .downloadEnds ticket reply => (state.1, state.2.receive ticket reply)
  | .persists ticket faults now => state.2.persist state.1 faults now ticket

namespace LiveService

def runAlone (l : LiveService) (script : CycleScript) : LiveService :=
  l.run script.events

def runInTurn (l : LiveService) (scripts : List CycleScript) : LiveService :=
  scripts.foldl runAlone l

/-- Each of the cycles has ended when the next one begins. -/
def Completes (l : LiveService) : List CycleScript → Prop
  | [] => l.isIdle = true
  | script :: rest => l.isIdle = true ∧ (l.runAlone script).Completes rest

instance decidableCompletes : (l : LiveService) → (scripts : List CycleScript) →
    Decidable (l.Completes scripts)
  | l, [] => inferInstanceAs (Decidable (l.isIdle = true))
  | l, script :: rest =>
    have := decidableCompletes (l.runAlone script) rest
    inferInstanceAs (Decidable (l.isIdle = true ∧ (l.runAlone script).Completes rest))

/-- The service with one cycle under way and the cache as the cycle has left it so far. -/
def during (l : LiveService) (state : Store × Cycle) : LiveService :=
  { l.withStore state.1 with cycles := [state.2] }

/-- The cache and the cycle after all moves of a script. -/
def lastState (l : LiveService) (script : CycleScript) : Store × Cycle :=
  script.moves.foldl (Cycle.move l.policy.limit)
    (l.service.store, .begin l.service l.policy script.now script.force)

theorem step_during (l : LiveService) (state : Store × Cycle) (move : CycleMove) :
    (l.during state).step (move.event 0) = l.during (Cycle.move l.policy.limit state move) := by
  obtain ⟨s, c⟩ := state
  cases move with
  | downloadStarts faults =>
    simp only [CycleMove.event, step, during, withStore, Cycle.move, List.getElem?_cons_zero,
      Option.bind_some]
    cases c.launch? s faults l.policy.limit with
    | none => rfl
    | some launched => rfl
  | downloadEnds ticket reply => rfl
  | persists ticket faults now => rfl

theorem run_during (l : LiveService) (state : Store × Cycle) (moves : List CycleMove) :
    (l.during state).run (moves.map (CycleMove.event 0)) =
      l.during (moves.foldl (Cycle.move l.policy.limit) state) := by
  induction moves generalizing state with
  | nil => rfl
  | cons move rest ih =>
    rw [List.map_cons, run_cons, step_during, ih]
    rfl

theorem runAlone_eq_endCycle {l : LiveService} (hidle : l.cycles = []) (script : CycleScript) :
    l.runAlone script = (l.during (l.lastState script)).endCycle 0 (l.lastState script).2 := by
  have hbegin : l.step (.cycleBegins script.now script.force) =
      l.during (l.service.store, .begin l.service l.policy script.now script.force) := by
    simp only [step, hidle, during, withStore, List.nil_append]
  calc
    l.runAlone script =
        ((l.step (.cycleBegins script.now script.force)).run
          (script.moves.map (CycleMove.event 0))).run [.cycleEnds 0] := by
      rw [runAlone, CycleScript.events, run_cons, run_append]
    _ = (l.during (l.lastState script)).step (.cycleEnds 0) := by
      rw [hbegin, run_during]
      rfl
    _ = (l.during (l.lastState script)).endCycle 0 (l.lastState script).2 := rfl

/-- A cycle that is done after its moves is concluded on the cache as they left it, and one that is
not stays under way. -/
theorem runAlone_cases {l : LiveService} (hidle : l.cycles = []) (script : CycleScript) :
    ((l.lastState script).2.isDone = true ∧
      l.runAlone script =
        { l with
          service := ((l.lastState script).2.conclude
            { l.service with store := (l.lastState script).1 }).1
          cycles := []
          ended := ((l.lastState script).2.conclude
            { l.service with store := (l.lastState script).1 }).2 :: l.ended }) ∨
    ((l.lastState script).2.isDone = false ∧
      l.runAlone script = l.during (l.lastState script)) := by
  rw [runAlone_eq_endCycle hidle, endCycle]
  cases h : (l.lastState script).2.isDone with
  | true => exact .inl ⟨rfl, rfl⟩
  | false => exact .inr ⟨rfl, rfl⟩

theorem isIdle_iff {l : LiveService} : l.isIdle = true ↔ l.cycles = [] :=
  List.isEmpty_iff

/-- A cycle that has ended was concluded on the cache as its moves left it. -/
theorem runAlone_of_isIdle {l : LiveService} (hidle : l.cycles = []) {script : CycleScript}
    (h : (l.runAlone script).isIdle = true) :
    (l.lastState script).2.isDone = true ∧
      l.runAlone script =
        { l with
          service := ((l.lastState script).2.conclude
            { l.service with store := (l.lastState script).1 }).1
          cycles := []
          ended := ((l.lastState script).2.conclude
            { l.service with store := (l.lastState script).1 }).2 :: l.ended } := by
  rcases runAlone_cases hidle script with hdone | ⟨_, heq⟩
  · exact hdone
  · rw [heq] at h
    cases h

/-- What a cycle that has ended leaves in the registry and in the cache. -/
theorem runAlone_frame {l : LiveService} (hidle : l.cycles = []) {script : CycleScript}
    (h : (l.runAlone script).isIdle = true) :
    (l.runAlone script).service.registry =
        (l.service.registry.merge (l.lastState script).2.results).1 ∧
      (l.runAlone script).service.store = (l.lastState script).1 := by
  obtain ⟨_, heq⟩ := runAlone_of_isIdle hidle h
  obtain ⟨hregistry, hstore, _⟩ := Refresh.conclude_frame
    { l.service with store := (l.lastState script).1 } (l.lastState script).2.results
  rw [heq]
  exact ⟨hregistry, hstore⟩

theorem Completes.isIdle {l : LiveService} {scripts : List CycleScript}
    (h : l.Completes scripts) : l.isIdle = true := by
  cases scripts with
  | nil => exact h
  | cons script rest => exact h.1

end LiveService

end FilterLists
