import FilterLists.Proofs.Refresh.Progress
import FilterLists.Proofs.Subscriptions

/-! The fetches of a cycle, in whatever order they start and end. Each filter that is due is fetched
once, in its turn and within the limit, and a fetch has one outcome unless it fails or its copy
cannot be saved. -/
namespace FilterLists

/-- A new content that cannot be saved. An unchanged one needs no save. -/
def Refresh.saveFails (s : Store) (faults : Faults) (now : Instant) (f : Filter) (changed : Bool) :
    Bool :=
  changed && !(s.save faults now f).2.isOk

theorem Refresh.persist_isSome (s : Store) (faults : Faults) (now : Instant) (f : Filter)
    (changed : Bool) :
    (persist s faults now f changed).2.isSome = !saveFails s faults now f changed := by
  unfold persist saveFails
  cases changed with
  | true =>
    rcases h : s.save faults now f with ⟨saved, _ | g⟩ <;> rfl
  | false =>
    rcases h : s.touch faults now f with ⟨touched, _ | g⟩ <;> rfl

def Task.isFetching : Task → Bool
  | .fetching .. => true
  | .fetched .. => false

/-- A cycle under way with what has come of its fetches. A fetch is named by its ticket, its place
among those that have started. -/
structure FanOut where
  cycle : Cycle
  /-- The working copies whose fetches have started, in order. -/
  fetches : List Filter := []
  /-- The fetches that have ended with an error. -/
  failed : List Nat := []
  /-- The fetches that have ended without one. -/
  succeeded : List Nat := []
  /-- The fetches without an error whose save has failed. -/
  unsaved : List Nat := []
  /-- The fetches without an error that have come through to the cache. -/
  stored : List Nat := []

namespace FanOut

def begin (s : Service) (policy : RefreshPolicy) (now : Instant) (force : Bool) : FanOut :=
  { cycle := .begin s policy now force }

/-- Writes down what a move means for the fetches. -/
def record (limit : Nat) (a : FanOut) (s : Store) : CycleMove → FanOut
  | .downloadStarts faults =>
    match a.cycle.launch? s faults limit with
    | some (_, f) => { a with fetches := a.fetches ++ [f] }
    | none => a
  | .downloadEnds ticket reply =>
    match a.cycle.active.find? (fun task => task.ticket = ticket) with
    | some (.fetching _ f) =>
      if (Fetch.apply reply f).isOk then { a with succeeded := a.succeeded ++ [ticket] }
      else { a with failed := a.failed ++ [ticket] }
    | _ => a
  | .persists ticket faults now =>
    match a.cycle.active.find? (fun task => task.ticket = ticket) with
    | some (.fetched _ f changed) =>
      if Refresh.saveFails s faults now f changed then { a with unsaved := a.unsaved ++ [ticket] }
      else { a with stored := a.stored ++ [ticket] }
    | _ => a

def move (limit : Nat) (a : FanOut) (s : Store) (m : CycleMove) : FanOut :=
  { a.record limit s m with cycle := (Cycle.move limit (s, a.cycle) m).2 }

/-- Moves of the cycle, each on a cache of its own: others may change it in between. -/
def run (limit : Nat) (a : FanOut) (moves : List (Store × CycleMove)) : FanOut :=
  moves.foldl (fun a m => a.move limit m.1 m.2) a

def subscription? (a : FanOut) (ticket : Nat) : Option (FilterId × String) :=
  a.fetches[ticket]?.map Filter.subscription

def inFlight (a : FanOut) : List Nat :=
  (a.cycle.active.filter Task.isFetching).map Task.ticket

/-- The fetches without an error that are yet to be brought to the cache. -/
def arrived (a : FanOut) : List Nat :=
  (a.cycle.active.filter (fun task => !task.isFetching)).map Task.ticket

end FanOut

namespace Cycle
variable {c : Cycle} {ticket : Nat} {before after : List Task}

theorem exists_split (htickets : (c.active.map Task.ticket).Nodup) {task : Task}
    (h : c.active.find? (fun task => task.ticket = ticket) = some task) :
    ∃ before after, c.active = before ++ task :: after ∧ task.ticket = ticket ∧
      ∀ other ∈ before ++ after, other.ticket ≠ ticket := by
  obtain ⟨hticket, before, after, hactive, -⟩ := List.find?_eq_some_iff_append.mp h
  have hticket : task.ticket = ticket := of_decide_eq_true hticket
  refine ⟨before, after, hactive, hticket, fun other hother => ?_⟩
  have hperm : c.active.Perm (task :: (before ++ after)) := hactive ▸ List.perm_middle
  have hnodup := (hperm.map Task.ticket).nodup_iff.mp htickets
  exact hticket ▸ ticket_ne_of_nodup hnodup other hother

theorem receive_of_split {f : Filter} (hactive : c.active = before ++ .fetching ticket f :: after)
    (hothers : ∀ other ∈ before ++ after, other.ticket ≠ ticket) (reply : Reply) :
    (∃ e, Fetch.apply reply f = .error e ∧
      c.receive ticket reply = { c with active := before ++ after }) ∨
    (∃ g changed, Fetch.apply reply f = .ok (g, changed) ∧
      c.receive ticket reply =
        { c with active := before ++ .fetched ticket g changed :: after }) := by
  have hkeep : ∀ part : List Task, (∀ other ∈ part, other.ticket ≠ ticket) →
      (({ c with active := part } : Cycle).receive ticket reply).active = part := fun part hpart =>
    congrArg Cycle.active (receive_of_ne hpart reply)
  have hbefore := hkeep before (fun other h => hothers other (List.mem_append_left _ h))
  have hafter := hkeep after (fun other h => hothers other (List.mem_append_right _ h))
  simp only [receive] at hbefore hafter
  simp only [receive, hactive, List.filterMap_append, List.filterMap_cons, if_true, hbefore, hafter]
  cases Fetch.apply reply f with
  | error e => exact .inl ⟨e, rfl, rfl⟩
  | ok result => exact .inr ⟨result.1, result.2, rfl, rfl⟩

theorem filter_ticket_ne_of_split {task : Task} (hticket : task.ticket = ticket)
    (hothers : ∀ other ∈ before ++ after, other.ticket ≠ ticket) :
    (before ++ task :: after).filter (fun other => other.ticket ≠ ticket) = before ++ after := by
  rw [List.filter_append, List.filter_cons_of_neg (by simpa using hticket), ← List.filter_append]
  exact List.filter_eq_self.mpr (by simpa using hothers)

end Cycle

namespace FanOut
variable {limit : Nat} {a b : FanOut}

/-- Everything that a move can do. -/
inductive IsMove (limit : Nat) (a : FanOut) : FanOut → Prop
  | starts {f g : Filter} {rest : List Filter} (hwaiting : a.cycle.waiting = f :: rest)
      (hroom : a.cycle.active.length < max limit 1) (hsame : g.subscription = f.subscription) :
      IsMove limit a { a with
        cycle := { a.cycle with
          waiting := rest
          active := a.cycle.active ++ [.fetching a.cycle.started g]
          started := a.cycle.started + 1 }
        fetches := a.fetches ++ [g] }
  | fails {before after : List Task} {ticket : Nat} {f : Filter}
      (hactive : a.cycle.active = before ++ .fetching ticket f :: after) :
      IsMove limit a { a with
        cycle := { a.cycle with active := before ++ after }
        failed := a.failed ++ [ticket] }
  | succeeds {before after : List Task} {ticket : Nat} {f g : Filter} {changed : Bool}
      (hactive : a.cycle.active = before ++ .fetching ticket f :: after)
      (hsame : g.subscription = f.subscription) :
      IsMove limit a { a with
        cycle := { a.cycle with active := before ++ .fetched ticket g changed :: after }
        succeeded := a.succeeded ++ [ticket] }
  | isLost {before after : List Task} {ticket : Nat} {f : Filter} {changed : Bool}
      (hactive : a.cycle.active = before ++ .fetched ticket f changed :: after) :
      IsMove limit a { a with
        cycle := { a.cycle with active := before ++ after }
        unsaved := a.unsaved ++ [ticket] }
  | isStored {before after : List Task} {ticket : Nat} {f : Filter} {changed : Bool}
      {fresh : Refreshed} (hactive : a.cycle.active = before ++ .fetched ticket f changed :: after)
      (hsame : fresh.filter.subscription = f.subscription) :
      IsMove limit a { a with
        cycle := { a.cycle with
          active := before ++ after
          results := a.cycle.results ++ [fresh] }
        stored := a.stored ++ [ticket] }
  | nothing : IsMove limit a a

theorem isMove_downloadStarts (s : Store) (faults : Faults) :
    IsMove limit a (a.move limit s (.downloadStarts faults)) := by
  simp only [move, record, Cycle.move]
  cases h : a.cycle.launch? s faults limit with
  | none => exact .nothing
  | some launched =>
    obtain ⟨c, g⟩ := launched
    obtain ⟨f, rest, hwaiting, hg, rfl⟩ := Cycle.launch?_cases h
    obtain ⟨hid, hurl⟩ := Refresh.prepare_subscription s faults f
    have hroom : a.cycle.active.length < max limit 1 := by
      by_contra hfull
      simp [Cycle.launch?, hwaiting, hfull] at h
    exact .starts hwaiting hroom (hg ▸ Prod.ext hid hurl)

theorem isMove_downloadEnds (htickets : (a.cycle.active.map Task.ticket).Nodup) (s : Store)
    (ticket : Nat) (reply : Reply) :
    IsMove limit a (a.move limit s (.downloadEnds ticket reply)) := by
  simp only [move, record, Cycle.move]
  cases hfind : a.cycle.active.find? (fun task => task.ticket = ticket) with
  | none =>
    rw [Cycle.receive_of_ne (by simpa using hfind)]
    exact .nothing
  | some task =>
    obtain ⟨before, after, hactive, hticket, hothers⟩ := Cycle.exists_split htickets hfind
    cases task with
    | fetched t f changed =>
      -- the ticket is that of a copy downloaded already, so no download ends
      obtain rfl : t = ticket := hticket
      have hnot : ∀ g, .fetching t g ∉ a.cycle.active := by
        intro g hmem
        rw [hactive, List.mem_append, List.mem_cons] at hmem
        rcases hmem with hmem | hmem | hmem
        · exact hothers _ (List.mem_append_left _ hmem) rfl
        · cases hmem
        · exact hothers _ (List.mem_append_right _ hmem) rfl
      rw [Cycle.receive_of_notMem hnot]
      exact .nothing
    | fetching t f =>
      obtain rfl : t = ticket := hticket
      rcases Cycle.receive_of_split hactive hothers reply with
        ⟨e, happly, heq⟩ | ⟨g, changed, happly, heq⟩
      · simp only [heq, happly, Except.isOk, Except.toBool, Bool.false_eq_true, if_false]
        exact .fails hactive
      · obtain ⟨hid, hurl⟩ := Fetch.apply_subscription happly
        simp only [heq, happly, Except.isOk, Except.toBool, if_true]
        exact .succeeds hactive (Prod.ext hid hurl)

theorem isMove_persists (htickets : (a.cycle.active.map Task.ticket).Nodup) (s : Store)
    (ticket : Nat) (faults : Faults) (now : Instant) :
    IsMove limit a (a.move limit s (.persists ticket faults now)) := by
  simp only [move, record, Cycle.move, Cycle.persist]
  cases hfind : a.cycle.active.find? (fun task => task.ticket = ticket) with
  | none => exact .nothing
  | some task =>
    obtain ⟨before, after, hactive, hticket, hothers⟩ := Cycle.exists_split htickets hfind
    cases task with
    | fetching t f => exact .nothing
    | fetched t f changed =>
      obtain rfl : t = ticket := hticket
      have hsome := Refresh.persist_isSome s faults now f changed
      have hrest : a.cycle.active.filter (fun task => task.ticket ≠ t) = before ++ after := by
        rw [hactive]
        exact Cycle.filter_ticket_ne_of_split rfl hothers
      simp only [hrest]
      cases houtcome : (Refresh.persist s faults now f changed).2 with
      | none =>
        have hfails : Refresh.saveFails s faults now f changed = true := by
          simpa [houtcome] using hsome
        simp only [hfails, if_true, Option.toList_none, List.append_nil]
        exact .isLost hactive
      | some fresh =>
        have hfails : Refresh.saveFails s faults now f changed = false := by
          simpa [houtcome] using hsome
        obtain ⟨time, rfl⟩ := Refresh.persist_outcome houtcome
        simp only [hfails, Bool.false_eq_true, if_false, Option.toList_some]
        have hsame : ({ f with lastUpdated := time } : Filter).subscription = f.subscription := rfl
        exact @IsMove.isStored limit a _ _ _ _ _ ⟨_, changed⟩ hactive hsame

theorem isMove_move (htickets : (a.cycle.active.map Task.ticket).Nodup) (s : Store)
    (m : CycleMove) : IsMove limit a (a.move limit s m) := by
  cases m with
  | downloadStarts faults => exact isMove_downloadStarts s faults
  | downloadEnds ticket reply => exact isMove_downloadEnds htickets s ticket reply
  | persists ticket faults now => exact isMove_persists htickets s ticket faults now

/-- What every move keeps, for a cycle that is to fetch the given subscriptions. -/
structure Tracked (limit : Nat) (due : List (FilterId × String)) (a : FanOut) : Prop where
  started : a.cycle.started = a.fetches.length
  inOrder : a.fetches.map Filter.subscription ++ a.cycle.waiting.map Filter.subscription = due
  bounded : a.cycle.active.length ≤ max limit 1
  /-- A fetch is under way, has failed or is through, and never two of these. -/
  tickets : (a.cycle.active.map Task.ticket ++ (a.failed ++ (a.unsaved ++ a.stored))).Perm
    (List.range a.fetches.length)
  succeeded : (a.arrived ++ (a.unsaved ++ a.stored)).Perm a.succeeded
  own : ∀ task ∈ a.cycle.active, a.subscription? task.ticket = some task.filter.subscription
  results : a.cycle.results.map (fun fresh => some fresh.filter.subscription) =
    a.stored.map a.subscription?

variable {due : List (FilterId × String)}

theorem Tracked.nodup (h : a.Tracked limit due) : (a.cycle.active.map Task.ticket).Nodup :=
  (List.nodup_append.mp (h.tickets.nodup_iff.mpr List.nodup_range)).1

theorem Tracked.lt_of_active (h : a.Tracked limit due) {task : Task}
    (htask : task ∈ a.cycle.active) : task.ticket < a.fetches.length :=
  List.mem_range.mp (h.tickets.subset (List.mem_append_left _ (List.mem_map_of_mem htask)))

theorem Tracked.lt_of_stored (h : a.Tracked limit due) {ticket : Nat}
    (hticket : ticket ∈ a.stored) : ticket < a.fetches.length :=
  List.mem_range.mp (h.tickets.subset (by simp [hticket]))

theorem tracked_begin (limit : Nat) (c : Cycle) (hactive : c.active = [])
    (hresults : c.results = []) (hstarted : c.started = 0) :
    ({ cycle := c } : FanOut).Tracked limit (c.waiting.map Filter.subscription) where
  started := hstarted
  inOrder := rfl
  bounded := by simp [hactive]
  tickets := by simp [hactive]
  succeeded := by simp [arrived, hactive]
  own := by simp [hactive]
  results := by simp [hresults]

theorem subscription?_append {fetches : List Filter} {ticket : Nat} (h : ticket < fetches.length)
    (g : Filter) : (fetches ++ [g])[ticket]?.map Filter.subscription =
      fetches[ticket]?.map Filter.subscription := by
  rw [List.getElem?_append_left h]

section Moves
variable {before after : List Task} {task : Task} {ticket : Nat} {f g : Filter} {changed : Bool}

theorem Tracked.starts (h : a.Tracked limit due) {rest : List Filter}
    (hwaiting : a.cycle.waiting = f :: rest) (hroom : a.cycle.active.length < max limit 1)
    (hsame : g.subscription = f.subscription) :
    ({ a with
      cycle := { a.cycle with
        waiting := rest
        active := a.cycle.active ++ [.fetching a.cycle.started g]
        started := a.cycle.started + 1 }
      fetches := a.fetches ++ [g] } : FanOut).Tracked limit due where
  started := by simp [h.started]
  inOrder := by
    rw [← h.inOrder, hwaiting]
    simp [hsame]
  bounded := by simpa using hroom
  tickets := by
    rw [List.length_append, List.length_singleton, List.range_succ]
    refine List.Perm.trans ?_ (h.tickets.append_right [a.fetches.length])
    rw [List.perm_iff_count]
    intro t
    simp only [List.map_append, List.map_cons, List.map_nil, List.count_append, Task.ticket,
      h.started]
    omega
  succeeded := by simpa [arrived, Task.isFetching] using h.succeeded
  own := by
    intro other hother
    rcases List.mem_append.mp hother with hold | hnew
    · rw [← h.own other hold]
      exact subscription?_append (h.lt_of_active hold) g
    · rw [List.mem_singleton.mp hnew]
      simp [subscription?, Task.ticket, Task.filter, h.started]
  results := by
    rw [h.results]
    exact List.map_congr_left (fun t ht => (subscription?_append (h.lt_of_stored ht) g).symm)

/-- A ticket that is taken out of a row joins the others. -/
theorem perm_of_leaves {first last others more all : List Nat}
    (h : (first ++ ticket :: last ++ others).Perm all) (hmore : more.Perm (ticket :: others)) :
    (first ++ last ++ more).Perm all :=
  calc
    (first ++ last ++ more).Perm (first ++ last ++ ticket :: others) := hmore.append_left _
    List.Perm _ (ticket :: (first ++ last ++ others)) := List.perm_middle
    List.Perm _ (first ++ ticket :: last ++ others) :=
      (List.perm_middle (a := ticket)).symm.append_right others
    List.Perm _ all := h

/-- A task that leaves makes room, and the others stay with their fetches. -/
theorem Tracked.rest (h : a.Tracked limit due)
    (hactive : a.cycle.active = before ++ task :: after) :
    (before ++ after).length ≤ max limit 1 ∧
      ∀ other ∈ before ++ after, a.subscription? other.ticket = some other.filter.subscription := by
  have hsub : (before ++ after).Sublist a.cycle.active :=
    hactive ▸ (List.sublist_cons_self task after).append_left before
  exact ⟨hsub.length_le.trans h.bounded, fun other hother => h.own other (hsub.subset hother)⟩

/-- The fetch of a task that leaves is over in one way. -/
theorem Tracked.tickets_rest (h : a.Tracked limit due)
    (hactive : a.cycle.active = before ++ task :: after) {gone : List Nat}
    (hgone : gone.Perm (task.ticket :: (a.failed ++ (a.unsaved ++ a.stored)))) :
    ((before ++ after).map Task.ticket ++ gone).Perm (List.range a.fetches.length) := by
  have htickets := h.tickets
  rw [hactive, List.map_append, List.map_cons] at htickets
  rw [List.map_append]
  exact perm_of_leaves htickets hgone

/-- A copy that leaves after its download has come through to the cache or not. -/
theorem Tracked.succeeded_rest (h : a.Tracked limit due)
    (hactive : a.cycle.active = before ++ .fetched ticket f changed :: after) {gone : List Nat}
    (hgone : gone.Perm (ticket :: (a.unsaved ++ a.stored))) :
    (((before ++ after).filter (fun task => !task.isFetching)).map Task.ticket ++ gone).Perm
      a.succeeded := by
  have hsucceeded := h.succeeded
  rw [arrived, hactive, List.filter_append, List.filter_cons_of_pos rfl, List.map_append,
    List.map_cons] at hsucceeded
  rw [List.filter_append, List.map_append]
  exact perm_of_leaves hsucceeded hgone

theorem Tracked.fails (h : a.Tracked limit due)
    (hactive : a.cycle.active = before ++ .fetching ticket f :: after) :
    ({ a with
      cycle := { a.cycle with active := before ++ after }
      failed := a.failed ++ [ticket] } : FanOut).Tracked limit due where
  started := h.started
  inOrder := h.inOrder
  bounded := (h.rest hactive).1
  tickets := by
    refine h.tickets_rest hactive ?_
    rw [List.append_assoc]
    exact List.perm_middle
  succeeded := by simpa [arrived, hactive, Task.isFetching] using h.succeeded
  own := (h.rest hactive).2
  results := h.results

theorem Tracked.succeeds (h : a.Tracked limit due)
    (hactive : a.cycle.active = before ++ .fetching ticket f :: after)
    (hsame : g.subscription = f.subscription) :
    ({ a with
      cycle := { a.cycle with active := before ++ .fetched ticket g changed :: after }
      succeeded := a.succeeded ++ [ticket] } : FanOut).Tracked limit due where
  started := h.started
  inOrder := h.inOrder
  bounded := by simpa [hactive] using h.bounded
  tickets := by simpa [hactive, Task.ticket] using h.tickets
  succeeded := by
    have hsucceeded := h.succeeded
    rw [arrived, hactive, List.filter_append, List.filter_cons_of_neg (by simp [Task.isFetching]),
      List.map_append] at hsucceeded
    rw [arrived, List.filter_append, List.filter_cons_of_pos rfl, List.map_append, List.map_cons,
      List.append_assoc, List.cons_append]
    rw [List.append_assoc] at hsucceeded
    exact (List.perm_middle.trans (hsucceeded.cons _)).trans
      (List.perm_append_singleton _ _).symm
  own := by
    intro other hother
    rcases List.mem_append.mp hother with hbefore | hafter
    · exact (h.rest hactive).2 other (List.mem_append_left _ hbefore)
    · rcases List.mem_cons.mp hafter with rfl | hlater
      · exact (h.own (.fetching ticket f) (by simp [hactive])).trans (congrArg some hsame.symm)
      · exact (h.rest hactive).2 other (List.mem_append_right _ hlater)
  results := h.results

theorem Tracked.isLost (h : a.Tracked limit due)
    (hactive : a.cycle.active = before ++ .fetched ticket f changed :: after) :
    ({ a with
      cycle := { a.cycle with active := before ++ after }
      unsaved := a.unsaved ++ [ticket] } : FanOut).Tracked limit due where
  started := h.started
  inOrder := h.inOrder
  bounded := (h.rest hactive).1
  tickets := by
    refine h.tickets_rest hactive ?_
    simpa [Task.ticket] using @List.perm_middle _ ticket (a.failed ++ a.unsaved) a.stored
  succeeded := by
    refine h.succeeded_rest hactive ?_
    rw [List.append_assoc]
    exact List.perm_middle
  own := (h.rest hactive).2
  results := h.results

theorem Tracked.isStored (h : a.Tracked limit due) {fresh : Refreshed}
    (hactive : a.cycle.active = before ++ .fetched ticket f changed :: after)
    (hsame : fresh.filter.subscription = f.subscription) :
    ({ a with
      cycle := { a.cycle with
        active := before ++ after
        results := a.cycle.results ++ [fresh] }
      stored := a.stored ++ [ticket] } : FanOut).Tracked limit due where
  started := h.started
  inOrder := h.inOrder
  bounded := (h.rest hactive).1
  tickets := by
    refine h.tickets_rest hactive ?_
    simpa [Task.ticket] using
      List.perm_append_singleton ticket (a.failed ++ (a.unsaved ++ a.stored))
  succeeded := by
    refine h.succeeded_rest hactive ?_
    simpa using List.perm_append_singleton ticket (a.unsaved ++ a.stored)
  own := (h.rest hactive).2
  results := by
    have hown : a.subscription? ticket = some f.subscription :=
      h.own (.fetched ticket f changed) (by simp [hactive])
    rw [List.map_append, List.map_append, h.results]
    simp only [List.map_cons, List.map_nil, hsame, ← hown]
    rfl

end Moves

theorem Tracked.move (h : a.Tracked limit due) (s : Store) (m : CycleMove) :
    (a.move limit s m).Tracked limit due := by
  have hmove : IsMove limit a (a.move limit s m) := isMove_move h.nodup s m
  generalize a.move limit s m = b at hmove
  cases hmove with
  | starts hwaiting hroom hsame => exact h.starts hwaiting hroom hsame
  | fails hactive => exact h.fails hactive
  | succeeds hactive hsame => exact h.succeeds hactive hsame
  | isLost hactive => exact h.isLost hactive
  | isStored hactive hsame => exact h.isStored hactive hsame
  | nothing => exact h

theorem Tracked.run (h : a.Tracked limit due) (moves : List (Store × CycleMove)) :
    (a.run limit moves).Tracked limit due := by
  induction moves generalizing a with
  | nil => exact h
  | cons m rest ih => exact ih (h.move m.1 m.2)

/-- No fetch is left out, made twice or made for another filter, and none beyond the limit. -/
structure Accounts (limit : Nat) (due : List (FilterId × String)) (a : FanOut) : Prop where
  withinLimit : a.inFlight.length ≤ max limit 1
  /-- The subscriptions that are due are fetched from the first one on. -/
  inOrder : a.fetches.map Filter.subscription ++ a.cycle.waiting.map Filter.subscription = due
  /-- A fetch that has started is in flight, or it has ended, and that only once. -/
  ended : (a.inFlight ++ (a.failed ++ a.succeeded)).Perm (List.range a.fetches.length)
  /-- A fetch without an error is yet to come to the cache, or it has, and that only once. -/
  through : (a.arrived ++ (a.unsaved ++ a.stored)).Perm a.succeeded
  /-- The outcomes are those of the stored fetches, one for each. -/
  outcomes : a.cycle.results.map (fun fresh => some fresh.filter.subscription) =
    a.stored.map a.subscription?

/-- Every due subscription has been fetched once, and every fetch without an error whose save has
not failed has one outcome. -/
structure IsComplete (due : List (FilterId × String)) (a : FanOut) : Prop where
  fetched : a.fetches.map Filter.subscription = due
  ended : (a.failed ++ a.succeeded).Perm (List.range due.length)
  through : (a.unsaved ++ a.stored).Perm a.succeeded
  outcomes : a.cycle.results.map (fun fresh => some fresh.filter.subscription) =
    a.stored.map a.subscription?

theorem Tracked.accounts (h : a.Tracked limit due) : a.Accounts limit due where
  withinLimit := by
    rw [inFlight, List.length_map]
    exact (List.length_filter_le _ _).trans h.bounded
  inOrder := h.inOrder
  ended := by
    have hactive : (a.inFlight ++ a.arrived).Perm (a.cycle.active.map Task.ticket) := by
      rw [inFlight, arrived, ← List.map_append]
      exact (List.filter_append_perm _ _).map _
    calc
      (a.inFlight ++ (a.failed ++ a.succeeded)).Perm
          (a.inFlight ++ (a.failed ++ (a.arrived ++ (a.unsaved ++ a.stored)))) :=
        (h.succeeded.symm.append_left _).append_left _
      List.Perm _ (a.inFlight ++ (a.arrived ++ (a.failed ++ (a.unsaved ++ a.stored)))) :=
        (List.perm_append_comm_assoc _ _ _).append_left _
      List.Perm _ (a.cycle.active.map Task.ticket ++ (a.failed ++ (a.unsaved ++ a.stored))) := by
        rw [← List.append_assoc]
        exact hactive.append_right _
      List.Perm _ (List.range a.fetches.length) := h.tickets
  through := h.succeeded
  outcomes := h.results

theorem Accounts.isComplete (h : a.Accounts limit due) (hdone : a.cycle.isDone = true) :
    a.IsComplete due := by
  obtain ⟨hwaiting, hactive⟩ := Cycle.isDone_iff.mp hdone
  have hfetched : a.fetches.map Filter.subscription = due := by
    simpa [hwaiting] using h.inOrder
  refine ⟨hfetched, ?_, by simpa [arrived, hactive] using h.through, h.outcomes⟩
  rw [← hfetched, List.length_map]
  simpa [inFlight, hactive] using h.ended

end FanOut

/-- The subscriptions that a cycle is to fetch, in the order of the registry: those that are enabled
and stale, all enabled ones of a forced cycle, and none while refreshing is paused. -/
def Refresh.due (s : Service) (policy : RefreshPolicy) (now : Instant) (force : Bool) :
    List (FilterId × String) :=
  if policy.paused then []
  else
    (s.registry.filters.filter fun f =>
      f.enabled && (force || f.isStale now policy.interval)).map Filter.subscription

theorem Refresh.map_subscription_candidates (s : Service) (policy : RefreshPolicy) (now : Instant)
    (force : Bool) : (candidates s policy now force).map Filter.subscription =
      due s policy now force := by
  unfold candidates due
  split
  · rfl
  · rw [Registry.refreshCandidates, List.map_map]
    rfl

namespace FanOut

theorem tracked_run (s : Service) (policy : RefreshPolicy) (now : Instant) (force : Bool)
    (moves : List (Store × CycleMove)) :
    ((begin s policy now force).run policy.limit moves).Tracked policy.limit
      (Refresh.due s policy now force) := by
  rw [← Refresh.map_subscription_candidates]
  exact (tracked_begin policy.limit (.begin s policy now force) rfl rfl rfl).run moves

theorem run_append (limit : Nat) (a : FanOut) (first last : List (Store × CycleMove)) :
    a.run limit (first ++ last) = (a.run limit first).run limit last :=
  List.foldl_append

end FanOut

namespace LiveService

theorem policy_step (l : LiveService) (e : ServiceEvent) : (l.step e).policy = l.policy := by
  cases e with
  | cycleEnds place =>
    simp only [step, endCycle]
    split
    · split <;> rfl
    · rfl
  | downloadStarts | persists | addProceeds | removeProceeds =>
    simp only [step]
    split <;> rfl
  | _ => rfl

theorem policy_run (l : LiveService) (events : List ServiceEvent) :
    (l.run events).policy = l.policy := by
  induction events generalizing l with
  | nil => rfl
  | cons e rest ih => rw [run_cons, ih, policy_step]

/-- A cycle under way has come about by moves of its own, whatever happened between them. -/
theorem exists_fanOut {l : LiveService} (hidle : l.cycles = []) {events : List ServiceEvent}
    {c : Cycle} (h : c ∈ (l.run events).cycles) :
    ∃ before now force after moves, events = before ++ .cycleBegins now force :: after ∧
      ((FanOut.begin (l.run before).service l.policy now force).run l.policy.limit moves).cycle =
        c := by
  induction events using List.reverseRecOn generalizing c with
  | nil => simp [run, hidle] at h
  | append_singleton earlier e ih =>
    -- a move of a cycle that was under way comes after those that it has made
    have hextend : ∀ {d : Cycle} (s : Store) (m : CycleMove), d ∈ (l.run earlier).cycles →
        (Cycle.move l.policy.limit (s, d) m).2 = c →
        ∃ before now force after moves, earlier ++ [e] = before ++ .cycleBegins now force :: after ∧
          ((FanOut.begin (l.run before).service l.policy now force).run l.policy.limit
            moves).cycle = c := by
      intro d s m hd hmove
      obtain ⟨before, now, force, after, moves, rfl, hcycle⟩ := ih hd
      refine ⟨before, now, force, after ++ [e], moves ++ [(s, m)], by simp, ?_⟩
      rw [FanOut.run_append, ← hmove, ← hcycle]
      rfl
    rw [run_append] at h
    rcases mem_cycles_step h with hold | ⟨now, force, rfl, rfl⟩ |
      ⟨place, faults, d, f, rfl, hd, hlaunch⟩ | ⟨place, ticket, reply, d, rfl, hd, rfl⟩ |
      ⟨place, ticket, faults, now, d, rfl, hd, rfl⟩
    · obtain ⟨before, now, force, after, moves, rfl, hcycle⟩ := ih hold
      exact ⟨before, now, force, after ++ [e], moves, by simp, hcycle⟩
    · exact ⟨earlier, now, force, [], [], rfl, by rw [← policy_run l earlier]; rfl⟩
    · refine hextend (l.run earlier).service.store (.downloadStarts faults)
        (List.mem_of_getElem? hd) ?_
      rw [policy_run] at hlaunch
      simp only [Cycle.move, hlaunch, Option.map_some, Option.getD_some]
    · exact hextend (l.run earlier).service.store (.downloadEnds ticket reply)
        (List.mem_of_getElem? hd) rfl
    · exact hextend _ (.persists ticket faults now) (List.mem_of_getElem? hd) rfl

/-- Whatever else happens to a service, none of its cycles goes beyond the limit. -/
theorem length_fetching_le {l : LiveService} (hidle : l.cycles = []) {events : List ServiceEvent}
    {c : Cycle} (h : c ∈ (l.run events).cycles) :
    (c.active.filter Task.isFetching).length ≤ max l.policy.limit 1 := by
  obtain ⟨before, now, force, after, moves, -, rfl⟩ := exists_fanOut hidle h
  have hwithin := (FanOut.tracked_run (l.run before).service l.policy now force
    moves).accounts.withinLimit
  rwa [FanOut.inFlight, List.length_map] at hwithin

end LiveService

end FilterLists
