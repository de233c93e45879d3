import FilterLists.Proofs.Independence
import FilterLists.Proofs.Timeline.OnClock

/-! A cycle on the clock comes to its end, whatever the delays of its downloads are. What it has yet
to wait for falls with every event, and the patience of the one who waits is enough for it. -/
namespace FilterLists

namespace Timeline
variable {start t : Timeline} {force : Bool} {run : Run}

/-- The milliseconds that the downloads of a run still take, if they come one after another. -/
def remaining (t : Timeline) (run : Run) : Nat :=
  (run.cycle.waiting.map (fun f => (t.scripted f.url).delay)).sum +
    (run.downloads.map (fun d => d.dueAt - t.elapsed)).sum

/-- Nothing in flight is due yet. -/
structure Steady (start : Timeline) (force : Bool) (t : Timeline) (run : Run) : Prop where
  onClock : OnClock start force t run
  later : ∀ d ∈ run.downloads, t.elapsed < d.dueAt

theorem remaining_finish (t : Timeline) (run : Run) (d : Download) :
    (t.finishDownload run d).1.remaining (t.finishDownload run d).2 ≤ t.remaining run := by
  have hsublist : (t.finishDownload run d).2.downloads.Sublist run.downloads := List.filter_sublist
  simp only [remaining, waiting_finish]
  exact Nat.add_le_add_left ((hsublist.map _).sum_le_sum (fun _ _ => Nat.zero_le _)) _

section Launch
variable {c : Cycle} {f : Filter}
  (hl : run.cycle.launch? t.service.store Faults.none t.policy.limit = some (c, f))
include hl

theorem remaining_launch :
    t.withDownload.remaining (run.withDownload c (t.download run f)) = t.remaining run := by
  obtain ⟨e, rest, hwaiting, hf, rfl⟩ := Cycle.launch?_cases hl
  have hurl : f.url = e.url := hf ▸ (Refresh.prepare_subscription t.service.store Faults.none e).2
  have hscripted : ∀ url, t.withDownload.scripted url = t.scripted url := fun _ => rfl
  have helapsed : t.withDownload.elapsed = t.elapsed := rfl
  simp only [remaining, Run.withDownload, hwaiting, hscripted, helapsed, List.map_append,
    List.map_cons, List.map_nil, List.sum_append, List.sum_cons, List.sum_nil, download, hurl]
  omega

theorem launchUpTo_succ (n : Nat) :
    launchUpTo (n + 1) t run =
      if (t.scripted f.url).delay = 0 then
        launchUpTo n
          (t.withDownload.finishDownload (run.withDownload c (t.download run f))
            (t.download run f)).1
          (t.withDownload.finishDownload (run.withDownload c (t.download run f))
            (t.download run f)).2
      else launchUpTo n t.withDownload (run.withDownload c (t.download run f)) := by
  simp only [launchUpTo, hl]
  rfl

theorem Steady.launch (h : Steady start force t run) (hdelay : (t.scripted f.url).delay ≠ 0) :
    Steady start force t.withDownload (run.withDownload c (t.download run f)) := by
  refine ⟨h.onClock.launch hl, fun d hd => ?_⟩
  rcases List.mem_append.mp hd with hold | hnew
  · exact h.later d hold
  · rw [List.mem_singleton.mp hnew]
    simp only [download, withDownload]
    omega

theorem Steady.launch_finish (h : Steady start force t run) :
    Steady start force
      (t.withDownload.finishDownload (run.withDownload c (t.download run f)) (t.download run f)).1
      (t.withDownload.finishDownload (run.withDownload c (t.download run f))
        (t.download run f)).2 := by
  have hmem : t.download run f ∈ (run.withDownload c (t.download run f)).downloads :=
    List.mem_append_right _ (List.mem_singleton.mpr rfl)
  refine ⟨(h.onClock.launch hl).finish hmem, fun d hd => ?_⟩
  obtain ⟨hd, hticket⟩ := List.mem_filter.mp hd
  rcases List.mem_append.mp hd with hold | hnew
  · exact h.later d hold
  · rw [List.mem_singleton.mp hnew] at hticket
    exact absurd rfl (of_decide_eq_true hticket)

end Launch

/-- Downloads start as long as there is room for one, and those without delay end. -/
theorem steady_launchUpTo (n : Nat) (h : Steady start force t run)
    (hn : run.cycle.waiting.length ≤ n) :
    Steady start force (launchUpTo n t run).1 (launchUpTo n t run).2 ∧
      ((launchUpTo n t run).2.cycle.waiting = [] ∨ (launchUpTo n t run).2.cycle.active ≠ []) ∧
      (launchUpTo n t run).1.remaining (launchUpTo n t run).2 ≤ t.remaining run := by
  induction n generalizing t run with
  | zero => exact ⟨h, .inl (List.length_eq_zero_iff.mp (Nat.le_zero.mp hn)), Nat.le_refl _⟩
  | succ n ih =>
    cases hl : run.cycle.launch? t.service.store Faults.none t.policy.limit with
    | none =>
      have hstop : launchUpTo (n + 1) t run = (t, run) := by simp only [launchUpTo, hl]
      have hfull : run.cycle.waiting = [] ∨ run.cycle.active ≠ [] := by
        cases hwaiting : run.cycle.waiting with
        | nil => exact .inl rfl
        | cons f rest =>
          refine .inr (fun hactive => ?_)
          simp [Cycle.launch?, hwaiting, hactive] at hl
      rw [hstop]
      exact ⟨h, hfull, Nat.le_refl _⟩
    | some launched =>
      obtain ⟨c, f⟩ := launched
      have hremaining := remaining_launch hl
      have hwaiting : c.waiting.length ≤ n := by
        obtain ⟨e, rest, heq, -, rfl⟩ := Cycle.launch?_cases hl
        simpa [heq] using hn
      rw [launchUpTo_succ hl]
      split_ifs with hdelay
      · obtain ⟨hafter, hfull, hle⟩ := ih (h.launch_finish hl)
          ((congrArg List.length (waiting_finish _ _ _)).trans_le hwaiting)
        exact ⟨hafter, hfull, hle.trans ((remaining_finish _ _ _).trans hremaining.le)⟩
      · obtain ⟨hafter, hfull, hle⟩ := ih (h.launch hl hdelay) hwaiting
        exact ⟨hafter, hfull, hle.trans hremaining.le⟩

def finishAll (t : Timeline) (run : Run) (ds : List Download) : Timeline × Run :=
  ds.foldl (fun state d => state.1.finishDownload state.2 d) (t, run)

theorem onClock_finishAll (ds : List Download) (h : OnClock start force t run)
    (hnodup : (ds.map Download.ticket).Nodup) (hds : ∀ d ∈ ds, d ∈ run.downloads) :
    OnClock start force (t.finishAll run ds).1 (t.finishAll run ds).2 ∧
      (∀ d ∈ (t.finishAll run ds).2.downloads,
        d ∈ run.downloads ∧ d.ticket ∉ ds.map Download.ticket) ∧
      (t.finishAll run ds).1.elapsed = t.elapsed ∧
      (t.finishAll run ds).1.remaining (t.finishAll run ds).2 ≤ t.remaining run := by
  induction ds generalizing t run with
  | nil => exact ⟨h, fun d hd => ⟨hd, by simp⟩, rfl, Nat.le_refl _⟩
  | cons first rest ih =>
    obtain ⟨hfirst, hrest⟩ := List.forall_mem_cons.mp hds
    obtain ⟨hapart, hnodup⟩ := List.nodup_cons.mp hnodup
    have hkept : ∀ d ∈ rest, d ∈ (t.finishDownload run first).2.downloads := fun d hd =>
      List.mem_filter.mpr ⟨hrest d hd, decide_eq_true (fun heq =>
        hapart (heq ▸ List.mem_map_of_mem hd))⟩
    obtain ⟨hafter, hdownloads, helapsed, hle⟩ := ih (h.finish hfirst) hnodup hkept
    refine ⟨hafter, fun d hd => ?_, helapsed, hle.trans (remaining_finish t run first)⟩
    obtain ⟨hmem, hnot⟩ := hdownloads d hd
    obtain ⟨hold, hne⟩ := List.mem_filter.mp hmem
    refine ⟨hold, ?_⟩
    rw [List.map_cons, List.mem_cons, not_or]
    exact ⟨of_decide_eq_true hne, hnot⟩

theorem steady_finishAll (h : OnClock start force t run) :
    Steady start force
        (t.finishAll run (run.downloads.filter (fun d => d.dueAt ≤ t.elapsed))).1
        (t.finishAll run (run.downloads.filter (fun d => d.dueAt ≤ t.elapsed))).2 ∧
      (t.finishAll run (run.downloads.filter (fun d => d.dueAt ≤ t.elapsed))).1.remaining
        (t.finishAll run (run.downloads.filter (fun d => d.dueAt ≤ t.elapsed))).2 ≤
          t.remaining run := by
  have htickets : (run.downloads.map Download.ticket).Nodup := h.tickets ▸ h.reached.nodup
  obtain ⟨hafter, hdownloads, helapsed, hle⟩ := onClock_finishAll _ h
    (htickets.sublist (List.filter_sublist.map _)) (fun d hd => (List.mem_filter.mp hd).1)
  refine ⟨⟨hafter, fun d hd => ?_⟩, hle⟩
  obtain ⟨hmem, hnot⟩ := hdownloads d hd
  rw [helapsed]
  by_contra hdue
  exact hnot (List.mem_map_of_mem (List.mem_filter.mpr ⟨hmem, decide_eq_true (by omega)⟩))

def Concluded (start : Timeline) (force : Bool) (t : Timeline) : Prop :=
  ∃ u run, OnClock start force u run ∧ run.cycle.isDone = true ∧
    t = { u with
      service := (run.cycle.conclude u.service).1
      ended := [(.caller, (run.cycle.conclude u.service).2)] }

/-- The cycle waits for downloads. -/
structure UnderWay (start : Timeline) (force : Bool) (t : Timeline) (run : Run) : Prop where
  runs : t.runs = [run]
  steady : Steady start force { t with runs := [] } run
  waits : run.downloads ≠ []

theorem OnClock.frame (h : OnClock start force t run) :
    t.runs = start.runs ∧ t.jobs = start.jobs ∧ t.ended = start.ended := by
  rw [h.same]
  exact ⟨rfl, rfl, rfl⟩

/-- After all that can start has started, the cycle is over, or downloads are in flight. -/
theorem concludeOrKeep_cases (hstart : start.IsFresh) (h : Steady start force t run)
    (hfull : run.cycle.waiting = [] ∨ run.cycle.active ≠ []) :
    Concluded start force (t.concludeOrKeep run) ∨
      (UnderWay start force (t.concludeOrKeep run) run ∧
        (t.concludeOrKeep run).remaining run = t.remaining run) := by
  obtain ⟨hruns, -, hended⟩ := h.onClock.frame
  rw [hstart.runs] at hruns
  rw [hstart.ended] at hended
  unfold concludeOrKeep
  cases hdone : run.cycle.isDone with
  | true =>
    refine .inl ⟨t, run, h.onClock, hdone, ?_⟩
    simp only [if_true, deliver, h.onClock.owner, hended, List.nil_append]
  | false =>
    refine .inr ⟨⟨by simp [hruns], ?_, ?_⟩, rfl⟩
    · have hsame : ({ t with runs := [] } : Timeline) = t := by rw [← hruns]
      simpa [hsame] using h
    · intro hnone
      have hactive : run.cycle.active = [] :=
        List.length_eq_zero_iff.mp (h.onClock.length_downloads.symm.trans (by simp [hnone]))
      have hwaiting := hfull.resolve_right (fun hne => hne hactive)
      rw [Cycle.isDone_iff.mpr ⟨hwaiting, hactive⟩] at hdone
      cases hdone

theorem jobs_of_concluded (hstart : start.IsFresh) (h : Concluded start force t) : t.jobs = [] := by
  obtain ⟨u, run, honClock, -, rfl⟩ := h
  exact honClock.frame.2.1.trans hstart.jobs

theorem UnderWay.jobs (hstart : start.IsFresh) (h : UnderWay start force t run) : t.jobs = [] :=
  h.steady.onClock.frame.2.1.trans hstart.jobs

theorem settleJobs_of_nil (h : t.jobs = []) : t.settleJobs = t := by
  simp [settleJobs, h]

/-- A run that goes on ends the downloads that are due and starts others. -/
theorem resume_cases (hstart : start.IsFresh) (h : OnClock start force t run) :
    Concluded start force (t.resume run) ∨
      ∃ next, UnderWay start force (t.resume run) next ∧
        (t.resume run).remaining next ≤ t.remaining run := by
  obtain ⟨hfinished, hle⟩ := steady_finishAll h
  obtain ⟨hlaunched, hfull, hle'⟩ := steady_launchUpTo _ hfinished (Nat.le_refl _)
  rcases concludeOrKeep_cases hstart hlaunched hfull with hconcluded | ⟨hunder, heq⟩
  · exact .inl hconcluded
  · exact .inr ⟨_, hunder, heq.le.trans (hle'.trans hle)⟩

theorem UnderWay.settle (hstart : start.IsFresh) (h : UnderWay start force t run) {moment : Nat}
    (hlater : t.elapsed < moment) :
    Concluded start force ({ t with elapsed := moment } : Timeline).settle ∨
      ∃ next, UnderWay start force ({ t with elapsed := moment } : Timeline).settle next ∧
        ({ t with elapsed := moment } : Timeline).settle.remaining next < t.remaining run := by
  have hwaited := h.steady.onClock.wait hlater.le
  have hless : ({ t with elapsed := moment, runs := [] } : Timeline).remaining run <
      t.remaining run := by
    refine Nat.add_lt_add_left (List.sum_lt_sum_of_ne_nil h.waits _ _ (fun d hd => ?_)) _
    have hdue := h.steady.later d hd
    simp only at hdue ⊢
    omega
  have hsettle : ({ t with elapsed := moment } : Timeline).settle =
      (({ t with elapsed := moment, runs := [] } : Timeline).resume run).settleJobs := by
    simp only [Timeline.settle, h.runs, List.foldl_cons, List.foldl_nil]
  rw [hsettle]
  rcases resume_cases hstart hwaited with hconcluded | ⟨next, hunder, hle⟩
  · rw [settleJobs_of_nil (jobs_of_concluded hstart hconcluded)]
    exact .inl hconcluded
  · rw [settleJobs_of_nil (hunder.jobs hstart)]
    exact .inr ⟨next, hunder, hle.trans_lt hless⟩

theorem UnderWay.exists_due (hstart : start.IsFresh) (h : UnderWay start force t run) :
    ∃ due, t.nextDue? = some due ∧ t.elapsed < due := by
  have hdue : t.nextDue? = (run.downloads.map Download.dueAt).min? := by
    simp [nextDue?, h.runs, h.jobs hstart]
  rw [hdue]
  cases hmin : (run.downloads.map Download.dueAt).min? with
  | none => exact absurd (by simpa using hmin) h.waits
  | some due =>
    obtain ⟨d, hd, rfl⟩ := List.mem_map.mp (List.min?_mem hmin)
    exact ⟨d.dueAt, rfl, h.steady.later d hd⟩

theorem UnderWay.remaining_pos (h : UnderWay start force t run) : 0 < t.remaining run := by
  obtain ⟨d, hd⟩ := List.exists_mem_of_ne_nil _ h.waits
  have hdue := h.steady.later d hd
  have hle : d.dueAt - t.elapsed ≤ (run.downloads.map (fun d => d.dueAt - t.elapsed)).sum :=
    List.le_sum_of_mem (List.mem_map_of_mem hd)
  simp only [remaining] at hdue ⊢
  omega

/-- The one who waits long enough sees the end. -/
theorem concluded_advanceUntilEnded (hstart : start.IsFresh) (n : Nat)
    (h : Concluded start force t ∨ ∃ run, UnderWay start force t run ∧ t.remaining run ≤ n) :
    Concluded start force (advanceUntilEnded .caller n t) := by
  -- each move of the clock costs one of `n` and lowers what remains by at least one
  induction n generalizing t with
  | zero =>
    rcases h with hconcluded | ⟨run, hunder, hle⟩
    · exact hconcluded
    · exact absurd hunder.remaining_pos (by omega)
  | succ n ih =>
    rcases h with hconcluded | ⟨run, hunder, hle⟩
    · have hended : t.ended.any (fun entry => entry.1 = .caller) = true := by
        obtain ⟨u, run, -, -, rfl⟩ := hconcluded
        rfl
      simpa only [advanceUntilEnded, hended, if_true] using hconcluded
    · have hended : t.ended = [] := hunder.steady.onClock.frame.2.2.trans hstart.ended
      have hgoing : t.ended.any (fun entry => entry.1 = .caller) = false := by simp [hended]
      obtain ⟨due, hdue, hlater⟩ := hunder.exists_due hstart
      simp only [advanceUntilEnded, hgoing, Bool.false_eq_true, if_false, hdue,
        Nat.max_eq_right hlater.le]
      refine ih ((hunder.settle hstart hlater).imp id ?_)
      rintro ⟨next, hnext, hless⟩
      exact ⟨next, hnext, by omega⟩

/-- The patience of the caller is one more than what is left to wait for. -/
theorem UnderWay.patience (h : UnderWay start force t run) :
    t.patience .caller = 1 + t.remaining run := by
  have howner : run.owner = .caller := h.steady.onClock.owner
  simp only [Timeline.patience, h.runs, List.filter_cons, howner, decide_true, if_true,
    List.filter_nil, List.foldl_cons, List.foldl_nil, remaining]
  rw [List.foldl_eq_apply_foldr, ← List.sum_eq_foldr, List.sum_append]

theorem concluded_beginCycle (hstart : start.IsFresh) (force : Bool) :
    Concluded start force (start.beginCycle .caller force) ∨
      ∃ run, UnderWay start force (start.beginCycle .caller force) run := by
  have hbegun : Steady start force start
      { owner := .caller, cycle := .begin start.service start.policy start.now force } :=
    ⟨onClock_begin hstart force, by simp⟩
  obtain ⟨hlaunched, hfull, -⟩ := steady_launchUpTo _ hbegun (Nat.le_refl _)
  rcases concludeOrKeep_cases hstart hlaunched hfull with hconcluded | ⟨hunder, -⟩
  · exact .inl hconcluded
  · exact .inr ⟨_, hunder⟩

/-- A refresh ends, and with the result of a cycle whose working copies are all through. -/
theorem refresh_cases (hstart : start.IsFresh) (force : Bool) :
    ∃ t run, OnClock start force t run ∧ run.cycle.isDone = true ∧
      start.refresh force =
        ({ t with service := (run.cycle.conclude t.service).1, ended := [] },
          some (run.cycle.conclude t.service).2) := by
  have hdone : Concluded start force
      (advanceUntilEnded .caller ((start.beginCycle .caller force).patience .caller)
        (start.beginCycle .caller force)) := by
    refine concluded_advanceUntilEnded hstart _ ?_
    rcases concluded_beginCycle hstart force with hconcluded | ⟨run, hunder⟩
    · exact .inl hconcluded
    · exact .inr ⟨run, hunder, by rw [hunder.patience]; omega⟩
  obtain ⟨t, run, honClock, hisDone, heq⟩ := hdone
  refine ⟨t, run, honClock, hisDone, ?_⟩
  simp only [refresh, await, heq]
  rfl

/-- The log after a refresh has one download for each subscription that was due, and at no moment
were more of them in flight than the limit allows. -/
structure Fetches (limit : Nat) (due : List (FilterId × String)) (t : Timeline) : Prop where
  each : (t.log.map FetchRecord.subscription).Perm due
  withinLimit : ∀ moment, t.log.countP (FetchRecord.covers moment) ≤ max limit 1
  /-- This counts also the downloads that end at the instant at which they start. -/
  peak : t.peak ≤ max limit 1

theorem OnClock.fetches (h : OnClock start force t run) (hdone : run.cycle.isDone = true) :
    t.Fetches start.policy.limit
      (Refresh.due start.service start.policy start.now force) := by
  obtain ⟨hwaiting, hactive⟩ := Cycle.isDone_iff.mp hdone
  have hdownloads : run.downloads = [] :=
    List.length_eq_zero_iff.mp (h.length_downloads.trans (by simp [hactive]))
  refine ⟨by simpa [hdownloads, hwaiting] using h.accounted, fun moment => ?_, h.peak⟩
  simpa [hdownloads] using h.withinLimit moment

end Timeline

/-- A cycle fetches each filter that is due once and no other, with no more fetches in flight than
the limit allows, and each fetch without an error whose save has not failed has one outcome. This
holds in whatever order fetches end, copies are written and others change the cache, and for a cycle
on the clock whatever the delays of its fetches are. -/
theorem fetches_each_due_once_within_limit (s : Service) (policy : RefreshPolicy) (force : Bool) :
    (∀ (now : Instant) (moves : List (Store × CycleMove)),
      let a := (FanOut.begin s policy now force).run policy.limit moves
      a.Accounts policy.limit (Refresh.due s policy now force) ∧
        (a.cycle.isDone = true → a.IsComplete (Refresh.due s policy now force))) ∧
    ∀ (began : Instant) (elapsed : Nat) (script : List (String × ScriptedReply)),
      let start : Timeline := { service := s, policy, began, elapsed, script }
      (start.refresh force).1.Fetches policy.limit (Refresh.due s policy start.now force) ∧
        ∃ (moves : List (Store × CycleMove)) (store : Store),
          let a := (FanOut.begin s policy start.now force).run policy.limit moves
          a.IsComplete (Refresh.due s policy start.now force) ∧
            (start.refresh force).1.service = (a.cycle.conclude { s with store }).1 ∧
            (start.refresh force).2 = some (a.cycle.conclude { s with store }).2 := by
  refine ⟨fun now moves => ?_, fun began elapsed script => ?_⟩
  · have haccounts := (FanOut.tracked_run s policy now force moves).accounts
    exact ⟨haccounts, haccounts.isComplete⟩
  · have hfresh : Timeline.IsFresh { service := s, policy, began, elapsed, script } :=
      ⟨rfl, rfl, rfl, rfl, rfl, rfl⟩
    obtain ⟨t, run, honClock, hdone, heq⟩ := Timeline.refresh_cases hfresh force
    have hservice : t.service = { s with store := t.service.store } :=
      congrArg Timeline.service honClock.same
    obtain ⟨each, hwithin, hpeak⟩ := honClock.fetches hdone
    obtain ⟨moves, hmoves⟩ := honClock.reached
    have haccounts := (FanOut.tracked_run s policy
      (Timeline.now { service := s, policy, began, elapsed, script }) force moves).accounts
    simp only [heq]
    refine ⟨⟨each, hwithin, hpeak⟩, moves, t.service.store,
      haccounts.isComplete (hmoves ▸ hdone), ?_, ?_⟩
    · rw [← hservice, ← hmoves]
    · rw [← hservice, ← hmoves]

/-- Two fetches that end in the wrong order, of which the second cannot be saved. -/
def backwardsFanOut : FanOut :=
  (FanOut.begin LiveService.twoDue.service {} ⟨0⟩ true).run 4
    (LiveService.backwards.map (LiveService.twoDue.service.store, ·))

theorem fetches_each_due_once_backwards :
    backwardsFanOut.cycle.isDone = true ∧
      backwardsFanOut.IsComplete [(1, "http://a"), (2, "http://b")] ∧
      backwardsFanOut.unsaved = [1] ∧ backwardsFanOut.stored = [0] := by
  have hdone : backwardsFanOut.cycle.isDone = true := by decide +kernel
  have hdue : Refresh.due LiveService.twoDue.service {} ⟨0⟩ true =
      [(1, "http://a"), (2, "http://b")] := by decide
  refine ⟨hdone, ?_, by decide +kernel, by decide +kernel⟩
  have hcomplete := ((fetches_each_due_once_within_limit LiveService.twoDue.service {} true).1 ⟨0⟩
    (LiveService.backwards.map (LiveService.twoDue.service.store, ·))).2 hdone
  rwa [hdue] at hcomplete

/-- With a limit of one, the second download starts when the first one ends. -/
example : (({ service := LiveService.twoDue.service, policy := { limit := 1 }, began := ⟨0⟩
              script := [("http://a", { reply := .failed "connection refused", delay := 5 }),
                ("http://b", { reply := .plainText "x", delay := 3 })] } : Timeline).refresh
            false).1.log.map (fun r => (r.id, r.startedAt, r.endedAt, r.outcome)) =
    [(2, 5, 8, .changed), (1, 0, 5, .failed)] := by decide +kernel

end FilterLists
