import FilterLists.Timeline
import FilterLists.Proofs.Refresh.FanOut

/-! A cycle on the clock. Its downloads start, end and are written at certain moments, and these are
moves of the cycle: at no moment are more downloads in flight than the limit allows, and each
subscription that is due waits, is in flight, or is in the log. -/
namespace FilterLists

namespace Cycle
variable {c : Cycle} {ticket : Nat}

/-- A download that ends at a moment is written at that moment, or dropped. -/
theorem active_persist_receive (htickets : (c.active.map Task.ticket).Nodup)
    (hfetching : ∀ task ∈ c.active, task.isFetching = true) (reply : Reply) (s : Store)
    (faults : Faults) (now : Instant) :
    ((c.receive ticket reply).persist s faults now ticket).2.active =
      c.active.filter (fun task => task.ticket ≠ ticket) := by
  cases hfind : c.active.find? (fun task => task.ticket = ticket) with
  | none =>
    have hne : ∀ task ∈ c.active, task.ticket ≠ ticket := by simpa using hfind
    rw [receive_of_ne hne, List.filter_eq_self.mpr (by simpa using hne)]
    simp only [persist, hfind]
  | some task =>
    obtain ⟨before, after, hactive, hticket, hothers⟩ := exists_split htickets hfind
    cases task with
    | fetched t f changed => simpa [hactive, Task.isFetching] using hfetching (.fetched t f changed)
    | fetching t f =>
      obtain rfl : t = ticket := hticket
      have hbefore : ∀ other ∈ before, other.ticket ≠ t := fun other h =>
        hothers other (List.mem_append_left _ h)
      have hrest : ∀ task : Task, task.ticket = t →
          (before ++ task :: after).filter (fun other => other.ticket ≠ t) = before ++ after :=
        fun task htask => filter_ticket_ne_of_split htask hothers
      rw [hactive, hrest _ rfl]
      rcases receive_of_split hactive hothers reply with ⟨e, -, heq⟩ | ⟨g, changed, -, heq⟩
      · have hnone : (before ++ after).find? (fun task => task.ticket = t) = none :=
          List.find?_eq_none.mpr (fun other hother => by simpa using hothers other hother)
        simp only [heq, persist, hnone]
      · have hfound : (before ++ Task.fetched t g changed :: after).find?
            (fun task => task.ticket = t) = some (.fetched t g changed) := by
          rw [List.find?_append, List.find?_eq_none.mpr (by simpa using hbefore)]
          simp [Task.ticket]
        simp only [heq, persist, hfound]
        exact hrest _ rfl

theorem waiting_persist (c : Cycle) (s : Store) (faults : Faults) (now : Instant) (ticket : Nat) :
    (c.persist s faults now ticket).2.waiting = c.waiting := by
  rcases c.persist_cases s faults now ticket with ⟨f, changed, -, heq⟩ | heq <;> rw [heq]

end Cycle

def Download.subscription (d : Download) : FilterId × String :=
  (d.id, d.url)

def FetchRecord.subscription (r : FetchRecord) : FilterId × String :=
  (r.id, r.url)

def FetchRecord.covers (moment : Nat) (r : FetchRecord) : Bool :=
  r.startedAt ≤ moment && moment < r.endedAt

def Run.withDownload (run : Run) (c : Cycle) (d : Download) : Run :=
  { run with cycle := c, downloads := run.downloads ++ [d] }

namespace Timeline

def download (t : Timeline) (run : Run) (f : Filter) : Download :=
  { ticket := run.cycle.started, url := f.url, id := f.id, startedAt := t.elapsed
    dueAt := t.elapsed + (t.scripted f.url).delay, reply := (t.scripted f.url).reply }

def withDownload (t : Timeline) : Timeline :=
  { t with inFlight := t.inFlight + 1, peak := max t.peak (t.inFlight + 1) }

/-- A timeline on which nothing has begun. -/
structure IsFresh (start : Timeline) : Prop where
  runs : start.runs = []
  jobs : start.jobs = []
  ended : start.ended = []
  inFlight : start.inFlight = 0
  log : start.log = []
  peak : start.peak = 0

/-- Moves have brought the cycle that begins at the start to where it is. -/
def Reaches (start : Timeline) (force : Bool) (c : Cycle) : Prop :=
  ∃ moves, ((FanOut.begin start.service start.policy start.now force).run start.policy.limit
    moves).cycle = c

section Reaches
variable {start : Timeline} {force : Bool} {c d : Cycle}

theorem Reaches.tracked (h : start.Reaches force c) : ∃ a : FanOut, a.cycle = c ∧
    a.Tracked start.policy.limit (Refresh.due start.service start.policy start.now force) := by
  obtain ⟨moves, hmoves⟩ := h
  exact ⟨_, hmoves, FanOut.tracked_run start.service start.policy start.now force moves⟩

theorem Reaches.nodup (h : start.Reaches force c) : (c.active.map Task.ticket).Nodup := by
  obtain ⟨a, rfl, htracked⟩ := h.tracked
  exact htracked.nodup

theorem Reaches.bounded (h : start.Reaches force c) :
    c.active.length ≤ max start.policy.limit 1 := by
  obtain ⟨a, rfl, htracked⟩ := h.tracked
  exact htracked.bounded

theorem Reaches.move (h : start.Reaches force c) (s : Store) (m : CycleMove) :
    start.Reaches force (Cycle.move start.policy.limit (s, c) m).2 := by
  obtain ⟨moves, rfl⟩ := h
  refine ⟨moves ++ [(s, m)], ?_⟩
  rw [FanOut.run_append]
  rfl

end Reaches

/-- The only cycle of a timeline under way, at some moment. -/
structure OnClock (start : Timeline) (force : Bool) (t : Timeline) (run : Run) : Prop where
  /-- Nothing but the cache, the clock and the log differ from the start. -/
  same : t = { start with
    service := { start.service with store := t.service.store }
    elapsed := t.elapsed
    inFlight := t.inFlight
    log := t.log
    peak := t.peak }
  owner : run.owner = .caller
  reached : start.Reaches force run.cycle
  /-- What is under way is in flight. -/
  fetching : ∀ task ∈ run.cycle.active, task.isFetching = true
  tickets : run.cycle.active.map Task.ticket = run.downloads.map Download.ticket
  inFlight : t.inFlight = run.downloads.length
  /-- Each subscription that is due is in the log, in flight or still waiting. -/
  accounted : (t.log.map FetchRecord.subscription ++ (run.downloads.map Download.subscription ++
    run.cycle.waiting.map Filter.subscription)).Perm
      (Refresh.due start.service start.policy start.now force)
  /-- At no moment up to now have more downloads been in flight than the limit allows, and there
  will not be more as long as none starts. -/
  withinLimit : ∀ moment, t.log.countP (FetchRecord.covers moment) +
    run.downloads.countP (fun d => d.startedAt ≤ moment) ≤ max start.policy.limit 1
  ended : ∀ r ∈ t.log, r.endedAt ≤ t.elapsed
  peak : t.peak ≤ max start.policy.limit 1

theorem waiting_finish (t : Timeline) (run : Run) (d : Download) :
    (t.finishDownload run d).2.cycle.waiting = run.cycle.waiting :=
  Cycle.waiting_persist (run.cycle.receive d.ticket d.reply) t.service.store Faults.none t.now
    d.ticket

namespace OnClock
variable {start t : Timeline} {force : Bool} {run : Run}

theorem length_downloads (h : OnClock start force t run) :
    run.downloads.length = run.cycle.active.length := by
  simpa using congrArg List.length h.tickets.symm

theorem perm_downloads (h : OnClock start force t run) {d : Download} (hd : d ∈ run.downloads) :
    run.downloads.Perm (d :: run.downloads.filter (fun other => other.ticket ≠ d.ticket)) :=
  perm_cons_filter_of_nodup (h.tickets ▸ h.reached.nodup) hd

theorem active_finish (h : OnClock start force t run) (d : Download) :
    (t.finishDownload run d).2.cycle.active =
      run.cycle.active.filter (fun task => task.ticket ≠ d.ticket) :=
  Cycle.active_persist_receive h.reached.nodup h.fetching d.reply t.service.store Faults.none t.now

/-- A download that ends goes to the log with the time that it took. -/
theorem finish (h : OnClock start force t run) {d : Download} (hd : d ∈ run.downloads) :
    OnClock start force (t.finishDownload run d).1 (t.finishDownload run d).2 where
  same := by
    rw [h.same]
    rfl
  owner := h.owner
  reached := (h.reached.move t.service.store (.downloadEnds d.ticket d.reply)).move t.service.store
    (.persists d.ticket Faults.none t.now)
  fetching := by
    intro task htask
    rw [h.active_finish] at htask
    exact h.fetching task (List.mem_filter.mp htask).1
  tickets := by
    have hfilter := congrArg (List.filter (fun other => other ≠ d.ticket)) h.tickets
    rw [List.filter_map, List.filter_map] at hfilter
    rw [h.active_finish]
    exact hfilter
  inFlight := by
    have hlength := (h.perm_downloads hd).length_eq
    have hinFlight := h.inFlight
    simp only [finishDownload, List.length_cons] at hlength ⊢
    omega
  accounted := by
    have hsubs := ((h.perm_downloads hd).map Download.subscription).append_right
      (run.cycle.waiting.map Filter.subscription)
    rw [waiting_finish]
    exact (List.perm_middle.symm.trans (hsubs.symm.append_left _)).trans h.accounted
  withinLimit := by
    intro moment
    have hbefore := h.withinLimit moment
    rw [(h.perm_downloads hd).countP_eq, List.countP_cons] at hbefore
    simp only [finishDownload, List.countP_cons]
    split_ifs with hcovers
    · -- a moment that the record covers is one at which the download was in flight
      have hstarted : d.startedAt ≤ moment := of_decide_eq_true (Bool.and_eq_true_iff.mp hcovers).1
      rw [if_pos (decide_eq_true hstarted)] at hbefore
      omega
    · omega
  ended := by
    intro r hr
    rcases List.mem_cons.mp hr with rfl | hold
    · exact Nat.le_refl _
    · exact h.ended r hold
  peak := h.peak

theorem launch (h : OnClock start force t run) {c : Cycle} {f : Filter}
    (hl : run.cycle.launch? t.service.store Faults.none t.policy.limit = some (c, f)) :
    OnClock start force t.withDownload (run.withDownload c (t.download run f)) := by
  have hpolicy : t.policy = start.policy := by rw [h.same]
  have hreached : start.Reaches force c := by
    have hmove := h.reached.move t.service.store (.downloadStarts Faults.none)
    simpa only [Cycle.move, ← hpolicy, hl, Option.map_some, Option.getD_some] using hmove
  obtain ⟨e, rest, hwaiting, hf, rfl⟩ := Cycle.launch?_cases hl
  have hroom : run.downloads.length + 1 ≤ max start.policy.limit 1 := by
    simpa [h.length_downloads] using hreached.bounded
  have hsame : f.subscription = e.subscription := by
    obtain ⟨hid, hurl⟩ := Refresh.prepare_subscription t.service.store Faults.none e
    exact hf ▸ Prod.ext hid hurl
  refine {
    same := ?same, owner := h.owner, reached := hreached, fetching := ?fetching
    tickets := ?tickets, inFlight := ?inFlight, accounted := ?accounted
    withinLimit := ?withinLimit, ended := h.ended, peak := ?peak }
  case same =>
    rw [h.same]
    rfl
  case fetching =>
    intro task htask
    rcases List.mem_append.mp htask with hold | hnew
    · exact h.fetching task hold
    · rw [List.mem_singleton.mp hnew]
      rfl
  case tickets =>
    simp only [Run.withDownload, List.map_append, h.tickets]
    rfl
  case inFlight => simp [Run.withDownload, withDownload, h.inFlight]
  case accounted =>
    have haccounted := h.accounted
    rw [hwaiting, List.map_cons, ← hsame] at haccounted
    simpa [Run.withDownload, withDownload, download, Download.subscription, Filter.subscription]
      using haccounted
  case withinLimit =>
    intro moment
    simp only [Run.withDownload, withDownload, List.countP_append]
    by_cases hlater : t.elapsed ≤ moment
    · -- all downloads of the log are over, so there is only what is in flight
      have hover : t.log.countP (FetchRecord.covers moment) = 0 := by
        refine List.countP_eq_zero.mpr (fun r hr hcovers => ?_)
        have hend := h.ended r hr
        have hlt : moment < r.endedAt := of_decide_eq_true (Bool.and_eq_true_iff.mp hcovers).2
        omega
      have hcount := List.countP_le_length (p := fun d : Download => decide (d.startedAt ≤ moment))
        (l := run.downloads)
      simp only [hover, List.countP_singleton]
      split <;> omega
    · simpa [List.countP_singleton, download, hlater] using h.withinLimit moment
  case peak =>
    have hinFlight := h.inFlight
    have hpeak := h.peak
    simp only [withDownload]
    omega

/-- Time passes without an effect on what is under way. -/
theorem wait (h : OnClock start force t run) {moment : Nat} (hlater : t.elapsed ≤ moment) :
    OnClock start force { t with elapsed := moment } run where
  same := by rw [h.same]
  owner := h.owner
  reached := h.reached
  fetching := h.fetching
  tickets := h.tickets
  inFlight := h.inFlight
  accounted := h.accounted
  withinLimit := h.withinLimit
  ended := fun r hr => (h.ended r hr).trans hlater
  peak := h.peak

end OnClock

theorem onClock_begin {start : Timeline} (h : start.IsFresh) (force : Bool) :
    OnClock start force start
      { owner := .caller, cycle := .begin start.service start.policy start.now force } where
  same := rfl
  owner := rfl
  reached := ⟨[], rfl⟩
  fetching := by simp [Cycle.begin]
  tickets := rfl
  inFlight := h.inFlight
  accounted := by
    simp [h.log, Cycle.begin, Refresh.map_subscription_candidates]
  withinLimit := by simp [h.log]
  ended := by simp [h.log]
  peak := by simp [h.peak]

end Timeline

end FilterLists
