import FilterLists.Proofs.Refresh.Following

/-! A cycle never gets stuck: whatever moves it has made, others bring it to its end. -/
namespace FilterLists.Cycle
variable {env : Surroundings} {s : Store} {c : Cycle} {rest : List Task}

theorem receive_of_notMem {ticket : Nat} (h : ∀ f, .fetching ticket f ∉ c.active) (reply : Reply) :
    c.receive ticket reply = c := by
  obtain ⟨waiting, active, results, started⟩ := c
  have hsame : active.filterMap some = active := List.filterMap_some
  simp only [receive]
  congr 1
  refine Eq.trans (List.filterMap_congr (fun task htask => ?_)) hsame
  cases task with
  | fetching t f =>
    have hne : t ≠ ticket := fun heq => h f (heq ▸ htask)
    simp [hne]
  | fetched t f changed => rfl

theorem receive_of_ne {ticket : Nat} (h : ∀ task ∈ c.active, task.ticket ≠ ticket) (reply : Reply) :
    c.receive ticket reply = c :=
  receive_of_notMem (fun _ hmem => h _ hmem rfl) reply

/-- The first task of a cycle is downloaded or dropped, and the others do not change. -/
theorem receive_head {ticket : Nat} {f : Filter} (hactive : c.active = .fetching ticket f :: rest)
    (hc : c.Distinct) (reply : Reply) :
    (c.receive ticket reply).active = rest ∨
      ∃ g changed, (c.receive ticket reply).active = .fetched ticket g changed :: rest := by
  have hothers : ∀ task ∈ rest, task.ticket ≠ ticket := ticket_ne_of_nodup (hactive ▸ hc.tickets)
  have hrest := congrArg Cycle.active (receive_of_ne (c := { c with active := rest }) hothers reply)
  simp only [receive] at hrest
  simp only [receive, hactive, List.filterMap_cons, if_true, hrest]
  cases Fetch.apply reply f with
  | error e => exact .inl rfl
  | ok result => exact .inr ⟨result.1, result.2, rfl⟩

theorem persist_head {ticket : Nat} {f : Filter} {changed : Bool}
    (hactive : c.active = .fetched ticket f changed :: rest) (hc : c.Distinct) (faults : Faults)
    (now : Instant) :
    (c.persist s faults now ticket).2.active = rest ∧
      (c.persist s faults now ticket).2.waiting = c.waiting := by
  have htickets : ((.fetched ticket f changed :: rest).map Task.ticket).Nodup :=
    hactive ▸ hc.tickets
  have hkeep : rest.filter (fun task => task.ticket ≠ ticket) = rest := filter_ticket_ne htickets
  have hfind : c.active.find? (fun task => task.ticket = ticket) =
      some (.fetched ticket f changed) := by simp [hactive, Task.ticket]
  simp only [persist, hfind]
  rw [hactive, List.filter_cons_of_neg (by simp [Task.ticket]), hkeep]
  exact ⟨rfl, trivial⟩

/-- The cycle can be brought to its end. -/
def CanEnd (env : Surroundings) (limit : Nat) (state : Store × Cycle) : Prop :=
  ∃ moves, MeetsAll env limit state moves ∧ (moves.foldl (Cycle.move limit) state).2.isDone = true

theorem CanEnd.of_move {limit : Nat} {move : CycleMove} (hmeets : c.Meets env move)
    (h : CanEnd env limit (Cycle.move limit (s, c) move)) : CanEnd env limit (s, c) := by
  obtain ⟨moves, hall, hdone⟩ := h
  exact ⟨move :: moves, ⟨hmeets, hall⟩, hdone⟩

theorem Distinct.eq_of_ticket (hc : c.Distinct) {first other : Task} (hfirst : first ∈ c.active)
    (hother : other ∈ c.active) (h : first.ticket = other.ticket) : first = other :=
  List.inj_on_of_nodup_map hc.tickets hfirst hother h

theorem canEnd_of_fetched {limit : Nat} {ticket : Nat} {f : Filter} {changed : Bool}
    (hactive : c.active = .fetched ticket f changed :: rest) (hc : c.Distinct)
    (h : ∀ (t : Store) (d : Cycle), d.Distinct → d.active = rest → d.waiting = c.waiting →
      CanEnd env limit (t, d)) : CanEnd env limit (s, c) := by
  have hmem : .fetched ticket f changed ∈ c.active := by simp [hactive]
  have hmeets : c.Meets env (.persists ticket (env.faults f.id) ⟨0⟩) := by
    intro g flag hg
    cases hc.eq_of_ticket hmem hg rfl
    rfl
  obtain ⟨hrest, hwaiting⟩ := persist_head (s := s) hactive hc (env.faults f.id) ⟨0⟩
  exact .of_move hmeets
    (h _ _ (hc.persist s (env.faults f.id) ⟨0⟩ ticket) hrest hwaiting)

theorem canEnd_of_fetching {limit : Nat} {ticket : Nat} {f : Filter}
    (hactive : c.active = .fetching ticket f :: rest) (hc : c.Distinct)
    (h : ∀ (t : Store) (d : Cycle), d.Distinct → d.active = rest → d.waiting = c.waiting →
      CanEnd env limit (t, d)) : CanEnd env limit (s, c) := by
  have hmem : .fetching ticket f ∈ c.active := by simp [hactive]
  have hmeets : c.Meets env (.downloadEnds ticket (env.network f.url)) := by
    intro g hg
    cases hc.eq_of_ticket hmem hg rfl
    rfl
  have hreceived := hc.receive ticket (env.network f.url)
  refine .of_move hmeets ?_
  rcases receive_head hactive hc (env.network f.url) with hrest | ⟨g, changed, hfetched⟩
  · exact h s _ hreceived hrest rfl
  · exact canEnd_of_fetched hfetched hreceived h

/-- One working copy after another is started, downloaded and written. -/
theorem canEnd (env : Surroundings) (limit : Nat) (s : Store) (c : Cycle) (hc : c.Distinct) :
    CanEnd env limit (s, c) := by
  -- a download takes its copy out of the row, and a write takes it out of the cycle
  induction hn : 2 * c.waiting.length + c.active.length using Nat.strong_induction_on
    generalizing s c with
  | _ n ih =>
    cases hactive : c.active with
    | nil =>
      cases hwaiting : c.waiting with
      | nil => exact ⟨[], trivial, isDone_iff.mpr ⟨hwaiting, hactive⟩⟩
      | cons f rest =>
        cases hl : c.launch? s (env.faults f.id) limit with
        | none => simp [launch?, hwaiting, hactive] at hl
        | some launched =>
          obtain ⟨d, g⟩ := launched
          have hd : d.Distinct := hc.launch hl
          obtain ⟨f', rest', hwaiting', _, rfl⟩ := launch?_cases hl
          have hmeets : c.Meets env (.downloadStarts (env.faults f.id)) := by
            intro e he
            simp only [hwaiting, List.head?_cons, Option.mem_some_iff] at he
            rw [he]
          refine .of_move hmeets ?_
          simp only [Cycle.move, hl, Option.map_some, Option.getD_some]
          refine ih _ ?_ s _ hd rfl
          simp only [hactive, hwaiting', List.length_nil, List.length_cons, List.nil_append] at hn ⊢
          omega
    | cons task rest =>
      have hnext : ∀ (t : Store) (d : Cycle), d.Distinct → d.active = rest →
          d.waiting = c.waiting → CanEnd env limit (t, d) := by
        intro t d hd hrest hwaiting
        refine ih _ ?_ t d hd rfl
        simp only [hrest, hwaiting, hactive, List.length_cons] at hn ⊢
        omega
      cases task with
      | fetching ticket f => exact canEnd_of_fetching hactive hc hnext
      | fetched ticket f changed => exact canEnd_of_fetched hactive hc hnext

theorem meetsAll_append {limit : Nat} {state : Store × Cycle} {first last : List CycleMove} :
    MeetsAll env limit state (first ++ last) ↔
      MeetsAll env limit state first ∧
        MeetsAll env limit (first.foldl (Cycle.move limit) state) last := by
  induction first generalizing state with
  | nil => simp [MeetsAll]
  | cons move rest ih => simp only [List.cons_append, MeetsAll, List.foldl_cons, ih, and_assoc]

end FilterLists.Cycle

namespace FilterLists

/-- How many moves a working copy still needs at most. -/
def Task.remaining : Task → Nat
  | .fetching .. => 2
  | .fetched .. => 1

def Cycle.remaining (c : Cycle) : Nat :=
  3 * c.waiting.length + (c.active.map Task.remaining).sum

theorem sum_filterMap_le {α : Type} {g : α → Option α} {weight : α → Nat}
    (h : ∀ a b, g a = some b → weight b ≤ weight a) (l : List α) :
    ((l.filterMap g).map weight).sum ≤ (l.map weight).sum := by
  induction l with
  | nil => exact Nat.le_refl 0
  | cons a rest ih =>
    rw [List.map_cons, List.sum_cons]
    cases ha : g a with
    | none =>
      rw [List.filterMap_cons_none ha]
      omega
    | some b =>
      have hb := h a b ha
      rw [List.filterMap_cons_some ha, List.map_cons, List.sum_cons]
      omega

namespace Cycle
variable {s : Store} {c : Cycle} {ticket : Nat} {f : Filter} {rest : List Task}

/-- The end of a download takes its working copy further, or out of the cycle. -/
theorem remaining_receive (hactive : c.active = .fetching ticket f :: rest) (reply : Reply) :
    (c.receive ticket reply).remaining < c.remaining := by
  simp only [remaining, receive, hactive, List.filterMap_cons, if_true, List.map_cons, List.sum_cons]
  have hothers : ((({ c with active := rest } : Cycle).receive ticket reply).active.map
      Task.remaining).sum ≤ (rest.map Task.remaining).sum := by
    refine sum_filterMap_le (fun task next hnext => ?_) rest
    cases task with
    | fetched t g changed =>
      cases hnext
      exact Nat.le_refl _
    | fetching t g =>
      simp only at hnext
      split at hnext
      · split at hnext <;> cases hnext
        exact Nat.le_succ 1
      · cases hnext
        exact Nat.le_refl _
  simp only [receive] at hothers
  cases Fetch.apply reply f with
  | error e =>
    simp only [Task.remaining] at hothers ⊢
    omega
  | ok result =>
    simp only [List.map_cons, List.sum_cons, Task.remaining] at hothers ⊢
    omega

theorem remaining_persist {changed : Bool} (hactive : c.active = .fetched ticket f changed :: rest)
    (faults : Faults) (now : Instant) :
    (c.persist s faults now ticket).2.remaining < c.remaining := by
  have hfind : c.active.find? (fun task => task.ticket = ticket) =
      some (.fetched ticket f changed) := by simp [hactive, Task.ticket]
  have hothers : ((rest.filter fun task => task.ticket ≠ ticket).map Task.remaining).sum ≤
      (rest.map Task.remaining).sum := by
    rw [← List.filterMap_eq_filter]
    refine sum_filterMap_le (fun task next hnext => ?_) rest
    rw [(Option.guard_eq_some_iff.mp hnext).1]
  simp only [remaining, persist, hfind]
  rw [hactive, List.filter_cons_of_neg (by simp [Task.ticket]), List.map_cons, List.sum_cons]
  simp only [Task.remaining]
  omega

/-- Whatever the answers to its downloads are, a cycle can be brought to its end. -/
theorem exists_ready (replies : Nat → Reply) (limit : Nat) (s : Store) (c : Cycle) :
    ∃ moves : List CycleMove,
      (∀ ticket reply, .downloadEnds ticket reply ∈ moves → reply = replies ticket) ∧
      (moves.foldl (Cycle.move limit) (s, c)).2.isDone = true := by
  induction hn : c.remaining using Nat.strong_induction_on generalizing s c with
  | _ n ih =>
    subst hn
    -- every move that is possible leaves fewer to be made
    have hmove : ∀ move : CycleMove,
        (∀ ticket reply, move = .downloadEnds ticket reply → reply = replies ticket) →
        (Cycle.move limit (s, c) move).2.remaining < c.remaining →
        ∃ moves : List CycleMove,
          (∀ ticket reply, .downloadEnds ticket reply ∈ moves → reply = replies ticket) ∧
          (moves.foldl (Cycle.move limit) (s, c)).2.isDone = true := by
      intro move hanswers hless
      obtain ⟨moves, hmoves, hdone⟩ := ih _ hless _ _ rfl
      refine ⟨move :: moves, fun ticket reply hmem => ?_, hdone⟩
      rcases List.mem_cons.mp hmem with heq | hlater
      · exact hanswers ticket reply heq.symm
      · exact hmoves ticket reply hlater
    cases hactive : c.active with
    | nil =>
      cases hwaiting : c.waiting with
      | nil => exact ⟨[], by simp, by simp [isDone, hwaiting, hactive]⟩
      | cons f rest =>
        refine hmove (.downloadStarts Faults.none) (by simp) ?_
        have hroom : 0 < max limit 1 := by omega
        simp only [Cycle.move, launch?, hwaiting, hactive, List.length_nil, hroom, if_true,
          Option.map_some, Option.getD_some, remaining, List.length_cons, List.nil_append,
          List.map_cons, List.map_nil, List.sum_cons, List.sum_nil, Task.remaining]
        omega
    | cons task rest =>
      cases task with
      | fetching ticket f =>
        refine hmove (.downloadEnds ticket (replies ticket)) ?_ (remaining_receive hactive _)
        rintro _ _ heq
        cases heq
        rfl
      | fetched ticket f changed =>
        exact hmove (.persists ticket Faults.none ⟨0⟩) (by simp) (remaining_persist hactive _ _)

end Cycle

end FilterLists
