import FilterLists.Proofs.Refresh.Copies
import FilterLists.Proofs.Refresh.Script

/-! The history of the cycles of a live service. Cycles are numbered in the order in which they
begin, and what they do is entered in the order in which it happens. -/
namespace FilterLists

inductive JournalEntry
  | fetchStarted (cycle : Nat) (id : FilterId)
  /-- The download of a filter has ended, with its body if that is new. -/
  | fetchEnded (cycle : Nat) (id : FilterId) (body : Option Bytes)
  /-- The new content of a working copy is in its file. -/
  | saved (cycle : Nat) (copy : Filter)
  | completed (cycle : Nat)
deriving DecidableEq, Repr

def Fetch.newBody? (reply : Reply) (f : Filter) : Option Bytes :=
  match Fetch.apply reply f with
  | .ok (fetched, true) => fetched.content
  | _ => none

def Task.ending? (cycle ticket : Nat) (reply : Reply) : Task → Option JournalEntry
  | .fetching started f =>
    if started = ticket then some (.fetchEnded cycle f.id (Fetch.newBody? reply f)) else none
  | .fetched .. => none

theorem Task.of_ending?_eq_some {cycle ticket : Nat} {reply : Reply} {task : Task}
    {entry : JournalEntry} (h : task.ending? cycle ticket reply = some entry) :
    ∃ id body, entry = .fetchEnded cycle id body := by
  unfold Task.ending? at h
  split at h
  · split at h <;> cases h
    exact ⟨_, _, rfl⟩
  · cases h

def Cycle.entriesOf (cycle limit : Nat) (s : Store) (c : Cycle) : CycleMove → List JournalEntry
  | .downloadStarts faults =>
    ((c.launch? s faults limit).map (fun launched => .fetchStarted cycle launched.2.id)).toList
  | .downloadEnds ticket reply => c.active.filterMap (Task.ending? cycle ticket reply)
  | .persists ticket faults now =>
    (((c.persist s faults now ticket).2.results.drop c.results.length).filter (·.changed)).map
      (fun fresh => .saved cycle fresh.filter)

def ServiceEvent.move? : ServiceEvent → Option (Nat × CycleMove)
  | .downloadStarts place faults => some (place, .downloadStarts faults)
  | .downloadEnds place ticket reply => some (place, .downloadEnds ticket reply)
  | .persists place ticket faults now => some (place, .persists ticket faults now)
  | _ => none

def ServiceEvent.isOfCycle : ServiceEvent → Bool
  | .cycleBegins .. | .cycleEnds .. => true
  | e => e.move?.isSome

/-- A live service and the history of its cycles. -/
structure Journal where
  live : LiveService
  /-- The numbers of the cycles under way, in their places. -/
  numbers : List Nat := []
  begun : Nat := 0
  /-- What happened first comes first. -/
  entries : List JournalEntry := []

namespace Journal

/-- The cycles under way with their numbers. -/
def underWay (j : Journal) : List (Nat × Cycle) :=
  j.numbers.zip j.live.cycles

def step (j : Journal) (e : ServiceEvent) : Journal :=
  let moved := { j with live := j.live.step e }
  match e with
  | .cycleBegins .. => { moved with numbers := j.numbers ++ [j.begun], begun := j.begun + 1 }
  | .cycleEnds place =>
    match j.underWay[place]? with
    | some (n, c) =>
      if c.isDone then
        { moved with numbers := j.numbers.eraseIdx place, entries := j.entries ++ [.completed n] }
      else moved
    | none => moved
  | e =>
    match e.move? with
    | some (place, move) =>
      match j.underWay[place]? with
      | some (n, c) =>
        { moved with
          entries :=
            j.entries ++ c.entriesOf n j.live.policy.limit j.live.service.store move }
      | none => moved
    | none => moved

def run (j : Journal) (events : List ServiceEvent) : Journal :=
  events.foldl step j

theorem step_live (j : Journal) (e : ServiceEvent) : (j.step e).live = j.live.step e := by
  unfold step
  cases e <;> simp only <;> repeat' split
  all_goals rfl

/-- Keeping the history changes nothing. -/
theorem run_live (j : Journal) (events : List ServiceEvent) :
    (j.run events).live = j.live.run events := by
  induction events generalizing j with
  | nil => rfl
  | cons e rest ih =>
    have hrest := ih (j.step e)
    rw [step_live] at hrest
    exact hrest

end Journal

def Store.content? (s : Store) (id : FilterId) : Option Bytes :=
  match s.cached id with
  | .ok (.file content _) => some content
  | _ => none

namespace Store
variable {s t : Store} {id : FilterId}

theorem content?_of_file {content : Bytes} {modified : Instant}
    (h : s.cached id = .ok (.file content modified)) : s.content? id = some content := by
  simp only [content?, h]

theorem content?_congr (h : t.cached id = s.cached id) : t.content? id = s.content? id := by
  simp only [content?, h]

theorem content?_touched {faults : Faults} {now : Instant}
    (h : t.cached id = touched faults now (s.cached id)) : t.content? id = s.content? id := by
  simp only [content?, h]
  cases s.cached id with
  | error e => rfl
  | ok node =>
    cases node with
    | directory entries modified => rfl
    | file content modified =>
      cases hfault : (faults .touch).isNone <;> simp [touched, hfault]

end Store

namespace Cycle
variable {c : Cycle} {s : Store} {limit n : Nat} {move : CycleMove}

/-- A move writes the new content of one working copy and enters that, or it writes no content. -/
theorem move_cases (c : Cycle) (limit n : Nat) (s : Store) (move : CycleMove) :
    (∃ ticket f g t, .fetched ticket f true ∈ c.active ∧ g = { f with lastUpdated := t } ∧
      c.entriesOf n limit s move = [.saved n g] ∧
      (Cycle.move limit (s, c) move).2.results = c.results ++ [{ filter := g, changed := true }] ∧
      (Cycle.move limit (s, c) move).1.content? f.id = some (f.content.getD []) ∧
      ∀ id, id ≠ f.id → (Cycle.move limit (s, c) move).1.cached id = s.cached id) ∨
    ((∀ m g, .saved m g ∉ c.entriesOf n limit s move) ∧
      (∀ g, { filter := g, changed := true } ∈ (Cycle.move limit (s, c) move).2.results ↔
        { filter := g, changed := true } ∈ c.results) ∧
      ∀ id, (Cycle.move limit (s, c) move).1.content? id = s.content? id) := by
  cases move with
  | downloadStarts faults =>
    right
    refine ⟨fun m g hmem => ?_, fun g => ?_, fun id => rfl⟩
    · simp [entriesOf] at hmem
    · simp only [Cycle.move]
      cases hl : c.launch? s faults limit with
      | none => rfl
      | some launched =>
        obtain ⟨f, rest, _, _, heq⟩ := launch?_cases (d := launched.1) (g := launched.2) hl
        simp only [Option.map_some, Option.getD_some, heq]
  | downloadEnds ticket reply =>
    right
    refine ⟨fun m g hmem => ?_, fun g => Iff.rfl, fun id => rfl⟩
    obtain ⟨task, _, hentry⟩ := List.mem_filterMap.mp hmem
    obtain ⟨id, body, heq⟩ := Task.of_ending?_eq_some hentry
    cases heq
  | persists ticket faults now =>
    simp only [Cycle.move, entriesOf]
    rcases c.persist_cases s faults now ticket with ⟨f, changed, hf, heq⟩ | heq
    · rw [heq]
      simp only [List.drop_left]
      cases changed with
      | true =>
        -- a save that fails leaves no outcome, so there is nothing to enter
        rcases Refresh.persist_changed s faults now f with
          ⟨_, houtcome, hfile, hframe⟩ | ⟨_, houtcome, hframe⟩
        · left
          rw [houtcome]
          exact ⟨ticket, f, _, _, hf, rfl, rfl, rfl, Store.content?_of_file hfile,
            hframe⟩
        · right
          rw [houtcome]
          exact ⟨by simp, by simp, fun id => Store.content?_congr (hframe id)⟩
      | false =>
        right
        obtain ⟨houtcome, htouched, hframe⟩ := Refresh.persist_unchanged s faults now f
        rw [houtcome]
        refine ⟨by simp, by simp, fun id => ?_⟩
        by_cases hid : id = f.id
        · subst hid
          exact Store.content?_touched htouched
        · exact Store.content?_congr (hframe id hid)
    · right
      rw [heq]
      exact ⟨by simp, by simp, fun id => rfl⟩

theorem saved_of_mem_entriesOf {m : Nat} {g : Filter}
    (h : .saved m g ∈ c.entriesOf n limit s move) :
    m = n ∧ ∃ ticket f t, .fetched ticket f true ∈ c.active ∧ g = { f with lastUpdated := t } := by
  rcases c.move_cases limit n s move with ⟨ticket, f, g', t, hf, hg', heq, _⟩ | ⟨hnone, _⟩
  · rw [heq] at h
    cases List.mem_singleton.mp h
    exact ⟨rfl, ticket, f, t, hf, hg'⟩
  · exact absurd h (hnone m g)

theorem eq_of_mem_entriesOf {g g' : Filter} (h : .saved n g ∈ c.entriesOf n limit s move)
    (h' : .saved n g' ∈ c.entriesOf n limit s move) : g = g' := by
  rcases c.move_cases limit n s move with ⟨_, _, _, _, _, _, heq, _⟩ | ⟨hnone, _⟩
  · rw [heq] at h h'
    cases List.mem_singleton.mp h
    cases List.mem_singleton.mp h'
    rfl
  · exact absurd h (hnone n g)

/-- The new contents among the results of a cycle are those that it has entered. -/
theorem mem_results_move {g : Filter} :
    { filter := g, changed := true } ∈ (Cycle.move limit (s, c) move).2.results ↔
      { filter := g, changed := true } ∈ c.results ∨ .saved n g ∈ c.entriesOf n limit s move := by
  rcases c.move_cases limit n s move with ⟨_, _, g', _, _, _, heq, hresults, _⟩ | ⟨hnone, hresults, _⟩
  · rw [heq, hresults]
    simp
  · rw [hresults g]
    exact ⟨.inl, fun h => h.resolve_right (hnone n g)⟩

theorem completed_notMem_entriesOf (m : Nat) : .completed m ∉ c.entriesOf n limit s move := by
  cases move with
  | downloadStarts faults => simp [entriesOf]
  | downloadEnds ticket reply =>
    intro hmem
    obtain ⟨task, _, hentry⟩ := List.mem_filterMap.mp hmem
    obtain ⟨id, body, heq⟩ := Task.of_ending?_eq_some hentry
    cases heq
  | persists ticket faults now => simp [entriesOf]

/-- A working copy with new content was there before, or its download has just ended. -/
theorem mem_active_move {ticket : Nat} {f : Filter}
    (h : .fetched ticket f true ∈ (Cycle.move limit (s, c) move).2.active) :
    .fetched ticket f true ∈ c.active ∨
      ∃ body, f.content = some body ∧ .fetchEnded n f.id (some body) ∈ c.entriesOf n limit s move := by
  cases move with
  | downloadStarts faults =>
    left
    simp only [Cycle.move] at h
    cases hl : c.launch? s faults limit with
    | none => simpa [hl] using h
    | some launched => exact fetched_of_launch hl (by simpa [hl] using h)
  | downloadEnds started reply =>
    rcases fetched_of_receive h with hold | ⟨e, he, happly⟩
    · exact .inl hold
    · obtain ⟨body, hbody⟩ := Fetch.apply_cases happly
      have hcontent : f.content = some body := by
        unfold Filter.applyFetched at hbody
        split at hbody
        · cases hbody
        · cases hbody
          rfl
      refine .inr ⟨body, hcontent, List.mem_filterMap.mpr ⟨_, he, ?_⟩⟩
      have hid : f.id = e.id := (Fetch.apply_subscription happly).1
      simp [Task.ending?, Fetch.newBody?, happly, hcontent, hid]
  | persists started faults now =>
    left
    simp only [Cycle.move] at h
    rcases c.persist_cases s faults now started with ⟨g, changed, _, heq⟩ | heq
    · rw [heq] at h
      exact (List.mem_filter.mp h).1
    · rw [heq] at h
      exact h

theorem distinct_move (h : c.Distinct) : (Cycle.move limit (s, c) move).2.Distinct := by
  cases move with
  | downloadStarts faults =>
    simp only [Cycle.move]
    cases hl : c.launch? s faults limit with
    | none => exact h
    | some launched => exact h.launch (d := launched.1) (g := launched.2) hl
  | downloadEnds ticket reply => exact h.receive ticket reply
  | persists ticket faults now => exact h.persist s faults now ticket

theorem forall_copies_move {P : FilterId → String → Prop} (h : ∀ f ∈ c.copies, P f.id f.url) :
    ∀ f ∈ (Cycle.move limit (s, c) move).2.copies, P f.id f.url := by
  cases move with
  | downloadStarts faults =>
    simp only [Cycle.move]
    cases hl : c.launch? s faults limit with
    | none => exact h
    | some launched => exact forall_copies_launch h (d := launched.1) (g := launched.2) hl
  | downloadEnds ticket reply => exact forall_copies_receive h ticket reply
  | persists ticket faults now => exact forall_copies_persist h s faults now ticket

end Cycle

namespace LiveService

theorem step_of_move? {l : LiveService} {e : ServiceEvent} {place : Nat} {move : CycleMove} {c : Cycle}
    (he : e.move? = some (place, move)) (hc : l.cycles[place]? = some c) :
    l.step e = { l.withStore (Cycle.move l.policy.limit (l.service.store, c) move).1 with
      cycles := l.cycles.set place (Cycle.move l.policy.limit (l.service.store, c) move).2 } := by
  obtain ⟨hplace, hget⟩ := List.getElem?_eq_some_iff.mp hc
  unfold ServiceEvent.move? at he
  split at he <;> cases he
  · simp only [step, hc, Option.bind_some, Cycle.move, withStore]
    cases c.launch? l.service.store _ l.policy.limit with
    | none => simp [← hget]
    | some launched => rfl
  · simp only [step, Cycle.move, withStore]
    rw [List.modify_eq_set_getElem?, hc]
    rfl
  · simp only [step, hc]
    rfl

theorem step_of_move?_of_none {l : LiveService} {e : ServiceEvent} {place : Nat} {move : CycleMove}
    (he : e.move? = some (place, move)) (hc : l.cycles[place]? = none) : l.step e = l := by
  unfold ServiceEvent.move? at he
  split at he <;> cases he
  · simp only [step, hc, Option.bind_none]
  · simp only [step]
    rw [List.modify_eq_set_getElem?, hc]
    rfl
  · simp only [step, hc]

end LiveService

namespace Journal
variable {j : Journal} {e : ServiceEvent}

theorem underWay_getElem?_eq_some {place n : Nat} {c : Cycle} :
    j.underWay[place]? = some (n, c) ↔ j.numbers[place]? = some n ∧ j.live.cycles[place]? = some c :=
  List.getElem?_zip_eq_some

theorem cycles_getElem?_eq_none (haligned : j.numbers.length = j.live.cycles.length) {place : Nat}
    (h : j.underWay[place]? = none) : j.live.cycles[place]? = none := by
  have hlength := List.getElem?_eq_none_iff.mp h
  rw [underWay, List.length_zip, haligned, Nat.min_self] at hlength
  exact List.getElem?_eq_none hlength

theorem step_of_move? {place : Nat} {move : CycleMove} (he : e.move? = some (place, move)) :
    j.step e =
      match j.underWay[place]? with
      | some (n, c) =>
        { j with
          live := j.live.step e
          entries := j.entries ++ c.entriesOf n j.live.policy.limit j.live.service.store move }
      | none => { j with live := j.live.step e } := by
  unfold ServiceEvent.move? at he
  split at he <;> cases he <;> rfl

def withBegun (j : Journal) (now : Instant) (force : Bool) : Journal :=
  { live := { j.live with
      cycles := j.live.cycles ++ [.begin j.live.service j.live.policy now force] }
    numbers := j.numbers ++ [j.begun]
    begun := j.begun + 1
    entries := j.entries }

def withMoved (j : Journal) (place n : Nat) (c : Cycle) (move : CycleMove) : Journal :=
  let moved := Cycle.move j.live.policy.limit (j.live.service.store, c) move
  { j with
    live := { j.live.withStore moved.1 with cycles := j.live.cycles.set place moved.2 }
    entries := j.entries ++ c.entriesOf n j.live.policy.limit j.live.service.store move }

def withEnded (j : Journal) (place n : Nat) (c : Cycle) : Journal :=
  { j with
    live := { j.live with
      service := (c.conclude j.live.service).1
      cycles := j.live.cycles.eraseIdx place
      ended := (c.conclude j.live.service).2 :: j.live.ended }
    numbers := j.numbers.eraseIdx place
    entries := j.entries ++ [.completed n] }

/-- What an event of a cycle can do. -/
theorem step_cases (haligned : j.numbers.length = j.live.cycles.length)
    (he : e.isOfCycle = true) :
    (∃ now force, e = .cycleBegins now force ∧ j.step e = j.withBegun now force) ∨
    (∃ place n c move, j.numbers[place]? = some n ∧ j.live.cycles[place]? = some c ∧
      j.step e = j.withMoved place n c move) ∨
    (∃ place n c, j.numbers[place]? = some n ∧ j.live.cycles[place]? = some c ∧
      j.step e = j.withEnded place n c) ∨
    j.step e = j := by
  have hmove : ∀ {place move}, e.move? = some (place, move) →
      (∃ n c, j.numbers[place]? = some n ∧ j.live.cycles[place]? = some c ∧
        j.step e = j.withMoved place n c move) ∨ j.step e = j := by
    intro place move he
    rw [step_of_move? he]
    cases hplace : j.underWay[place]? with
    | none =>
      right
      simp only [LiveService.step_of_move?_of_none he (cycles_getElem?_eq_none haligned hplace)]
    | some pair =>
      obtain ⟨n, c⟩ := pair
      obtain ⟨hn, hc⟩ := underWay_getElem?_eq_some.mp hplace
      left
      refine ⟨n, c, hn, hc, ?_⟩
      simp only [LiveService.step_of_move? he hc]
      rfl
  cases e with
  | cycleBegins now force => exact .inl ⟨now, force, rfl, rfl⟩
  | cycleEnds place =>
    right; right
    simp only [step, LiveService.step]
    cases hplace : j.underWay[place]? with
    | none =>
      right
      simp only [cycles_getElem?_eq_none haligned hplace]
    | some pair =>
      obtain ⟨n, c⟩ := pair
      obtain ⟨hn, hc⟩ := underWay_getElem?_eq_some.mp hplace
      simp only [hc, LiveService.endCycle]
      cases hdone : c.isDone with
      | true => exact .inl ⟨place, n, c, hn, hc, rfl⟩
      | false => exact .inr rfl
  | downloadStarts | downloadEnds | persists =>
    rcases hmove rfl with ⟨n, c, hn, hc, heq⟩ | heq
    · exact .inr (.inl ⟨_, n, c, _, hn, hc, heq⟩)
    · exact .inr (.inr (.inr heq))
  | addBegins | addProceeds | removeBegins | removeProceeds | switches | loadsAll | deduplicates
  | assignsId | raisesIdFloor | setsUserRules | fileVanishes => cases he

end Journal

end FilterLists
