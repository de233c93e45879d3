import FilterLists.Proofs.Job.Step
import Mathlib.Data.List.Induction

/-! Requests for a forced cycle, and the forced cycles that a job starts because of them. A request
wakes a job that is at rest; one that finds it busy, or woken already, is kept for later, and there
is room for one. So two requests that come before a woken job runs are answered by a cycle each. -/
namespace FilterLists

/-- Since the last forced cycle started, or with it, something came that the condition accepts after
what had come before. -/
def SinceForced (p : List Happening → Happening → Prop) (past : List Happening) : Prop :=
  ∃ before x after, past = before ++ x :: after ∧ p before x ∧ .did .forcedCycle ∉ after

def IsRequested (past : List Happening) : Prop :=
  SinceForced (fun _ x => x = .requested) past

/-- How many requests have come since the job came to rest, if it has not run since. -/
def Happening.sinceRest (since : Option Nat) : Happening → Option Nat
  | .requested => since.map (· + 1)
  | .rests => some 0
  | .did _ => none

def sinceRest (past : List Happening) : Option Nat :=
  past.foldl Happening.sinceRest none

/-- Two requests or more had come to the job at rest when the last forced cycle started. -/
def IsLeftOver (past : List Happening) : Prop :=
  SinceForced (fun before x => x = .did .forcedCycle ∧ ∃ k, sinceRest before = some (k + 2)) past

/-- How often something comes that counts, where a state that follows what has come decides that. -/
def occasions (follow : σ → Happening → σ) (counts : σ → Happening → Bool) (state : σ) :
    List Happening → Nat
  | [] => 0
  | x :: rest => (counts state x).toNat + occasions follow counts (follow state x) rest

def Happening.asks (asked : Bool) : Happening → Bool
  | .requested => true
  | .did .forcedCycle => false
  | .rests | .did _ => asked

/-- How often a request follows a forced start, or the beginning, before any other request does.
The flag says whether there is a request already. -/
def requestGroups (asked : Bool) (past : List Happening) : Nat :=
  occasions Happening.asks (fun asked x => decide (x = .requested) && !asked) asked past

/-- How often a second request comes to a job at rest before it runs. -/
def secondRequests (since : Option Nat) (past : List Happening) : Nat :=
  occasions Happening.sinceRest (fun since x => decide (x = .requested ∧ since = some 1)) since past

theorem sinceForced_append {p : List Happening → Happening → Prop} {past : List Happening}
    {x : Happening} :
    SinceForced p (past ++ [x]) ↔ p past x ∨ x ≠ .did .forcedCycle ∧ SinceForced p past := by
  constructor
  · rintro ⟨before, y, after, h, hy, hafter⟩
    -- either nothing came after, or the last of what came after is the last of all
    obtain rfl | ⟨start, last, rfl⟩ := after.eq_nil_or_concat
    · obtain ⟨rfl, hlast⟩ := List.append_inj' h rfl
      cases hlast
      exact .inl hy
    · rw [List.concat_eq_append] at h hafter
      rw [← List.cons_append, ← List.append_assoc] at h
      obtain ⟨hpast, hlast⟩ := List.append_inj' h rfl
      cases hlast
      rw [List.mem_append, not_or, List.mem_singleton] at hafter
      exact .inr ⟨Ne.symm hafter.2, before, y, start, hpast, hy, hafter.1⟩
  · rintro (hx | ⟨hx, before, y, after, rfl, hy, hafter⟩)
    · exact ⟨past, x, [], rfl, hx, List.not_mem_nil⟩
    · refine ⟨before, y, after ++ [x], by simp, hy, ?_⟩
      rw [List.mem_append, not_or, List.mem_singleton]
      exact ⟨hafter, Ne.symm hx⟩

theorem isRequested_append {past : List Happening} {x : Happening} :
    IsRequested (past ++ [x]) ↔ x = .requested ∨ x ≠ .did .forcedCycle ∧ IsRequested past :=
  sinceForced_append

theorem isLeftOver_append {past : List Happening} {x : Happening} :
    IsLeftOver (past ++ [x]) ↔
      (x = .did .forcedCycle ∧ ∃ k, sinceRest past = some (k + 2)) ∨
        x ≠ .did .forcedCycle ∧ IsLeftOver past :=
  sinceForced_append

theorem not_sinceForced_nil (p : List Happening → Happening → Prop) : ¬ SinceForced p [] := by
  rintro ⟨before, x, after, h, -⟩
  cases before <;> cases h

theorem sinceRest_append (past : List Happening) (x : Happening) :
    sinceRest (past ++ [x]) = x.sinceRest (sinceRest past) :=
  List.foldl_append

theorem occasions_append (follow : σ → Happening → σ) (counts : σ → Happening → Bool) (state : σ)
    (xs ys : List Happening) :
    occasions follow counts state (xs ++ ys) =
      occasions follow counts state xs + occasions follow counts (xs.foldl follow state) ys := by
  induction xs generalizing state with
  | nil => exact (Nat.zero_add _).symm
  | cons x xs ih => rw [List.cons_append, occasions, occasions, List.foldl_cons, ih, Nat.add_assoc]

theorem requestGroups_append (asked : Bool) (xs ys : List Happening) :
    requestGroups asked (xs ++ ys) =
      requestGroups asked xs + requestGroups (xs.foldl Happening.asks asked) ys :=
  occasions_append ..

theorem secondRequests_append (since : Option Nat) (xs ys : List Happening) :
    secondRequests since (xs ++ ys) =
      secondRequests since xs + secondRequests (xs.foldl Happening.sinceRest since) ys :=
  occasions_append ..

theorem secondRequests_pos {past : List Happening} {k : Nat} (h : sinceRest past = some (k + 2)) :
    0 < secondRequests none past := by
  induction past using List.reverseRecOn generalizing k with
  | nil => cases h
  | append_singleton past x ih =>
    rw [sinceRest_append] at h
    rw [secondRequests_append]
    cases x with
    | rests => cases h
    | did action => cases h
    | requested =>
      obtain ⟨n, hn, hk⟩ := Option.map_eq_some_iff.mp h
      obtain rfl : n = k + 1 := Nat.succ.inj hk
      cases k with
      | zero =>
        have hone : past.foldl Happening.sinceRest none = some 1 := hn
        simp [secondRequests, occasions, hone]
      | succ k => exact Nat.add_pos_left (ih hn) _

/-- Nothing is left over unless a second request came to the job at rest. -/
theorem IsLeftOver.secondRequests_pos {past : List Happening} (h : IsLeftOver past) :
    0 < secondRequests none past := by
  obtain ⟨before, x, after, rfl, ⟨-, k, hk⟩, -⟩ := h
  rw [secondRequests_append]
  exact Nat.add_pos_left (FilterLists.secondRequests_pos hk) _

namespace Notifier
variable {n : Notifier}

theorem isReady_notify (n : Notifier) : n.notify.isReady = true := by
  unfold notify isReady
  cases n.listener <;> rfl

theorem listener_take (n : Notifier) : n.take.listener = .away := by
  unfold take
  cases n.listener <;> rfl

theorem park_eq (h : n.isReady = false) : n.park = { listener := .parked } := by
  obtain ⟨permit, listener⟩ := n
  cases permit with
  | false => rfl
  | true => cases listener <;> cases h

/-- How many forced cycles the listener starts before it finds nothing to take. -/
def owed (n : Notifier) : Nat :=
  n.permit.toNat + if n.listener = .woken then 1 else 0

theorem toNat_isReady_le (n : Notifier) : n.isReady.toNat ≤ n.owed := by
  obtain ⟨permit, listener⟩ := n
  cases permit <;> cases listener <;> decide

theorem owed_take (h : n.isReady = true) : n.take.owed + 1 = n.owed := by
  obtain ⟨permit, listener⟩ := n
  revert h
  cases permit <;> cases listener <;> decide

theorem owed_leave_le (n : Notifier) : n.leave.owed ≤ n.owed := by
  obtain ⟨permit, listener⟩ := n
  cases permit <;> cases listener <;> decide

theorem owed_park_le (n : Notifier) : n.park.owed ≤ n.owed :=
  Nat.add_le_add_left (Nat.zero_le _) _

def afterRest : Nat → Notifier
  | 0 => { listener := .parked }
  | 1 => { listener := .woken }
  | _ + 2 => { permit := true, listener := .woken }

theorem notify_afterRest (k : Nat) : (afterRest k).notify = afterRest (k + 1) := by
  match k with
  | 0 => rfl
  | 1 => rfl
  | k + 2 => rfl

/-- The listener is away unless the job is at rest. -/
def Fits (n : Notifier) : Option Nat → Prop
  | none => n.listener = .away
  | some k => n = afterRest k

theorem Fits.notify {since : Option Nat} (h : n.Fits since) :
    n.notify.Fits (since.map (· + 1)) := by
  cases since with
  | none =>
    have haway : n.listener = .away := h
    simp only [Notifier.notify, haway, Option.map_none, Fits]
  | some k =>
    obtain rfl : n = afterRest k := h
    exact notify_afterRest k

/-- A request adds to what is owed if nothing was, or if it is the second one to a job at rest. -/
theorem Fits.owed_notify_le {since : Option Nat} (h : n.Fits since) :
    n.notify.owed ≤
      n.owed + (if n.isReady then 0 else 1) + if since = some 1 then 1 else 0 := by
  cases since with
  | none =>
    obtain ⟨permit, listener⟩ := n
    obtain rfl : listener = .away := h
    cases permit <;> decide
  | some k =>
    obtain rfl : n = afterRest k := h
    match k with
    | 0 => decide
    | 1 => decide
    | k + 2 => exact Nat.le_add_right _ _

/-- What is left when a forced cycle starts came second to a job at rest. -/
theorem Fits.isReady_take {since : Option Nat} (h : n.Fits since) (hready : n.isReady = true) :
    n.take.isReady = true ↔ ∃ k, since = some (k + 2) := by
  cases since with
  | none =>
    have haway : n.listener = .away := h
    simp [take, isReady, haway]
  | some k =>
    obtain rfl : n = afterRest k := h
    match k with
    | 0 => cases hready
    | 1 => exact ⟨nofun, by rintro ⟨k, hk⟩; cases hk⟩
    | k + 2 => exact ⟨fun _ => ⟨k, rfl⟩, fun _ => rfl⟩

end Notifier

namespace Job
variable {j : Job} {now : Nat} {event : JobEvent} {events : List (Nat × JobEvent)}

structure Goes (j : Job) : Prop where
  cancelled : j.cancelled = false
  phase (result : Except Error Unit) : j.phase ≠ .ended result

/-- Neither a cancellation nor the failure of a cycle. -/
def Continues (event : JobEvent) : Prop :=
  event ≠ .cancelled ∧ ∀ error, event ≠ .cycleEnds (.error error)

def Proceeds (events : List (Nat × JobEvent)) : Prop :=
  ∀ e ∈ events, e.2 ≠ .cancelled ∧ ∀ error, e.2 ≠ .cycleEnds (.error error)

theorem Proceeds.tail {e : Nat × JobEvent} (h : Proceeds (e :: events)) : Proceeds events :=
  fun x hx => h x (List.mem_cons_of_mem e hx)

theorem goes_start (interval now : Nat) : (start interval now).Goes :=
  ⟨rfl, nofun⟩

inductive Advances (j : Job) (now : Nat) (event : JobEvent) : Prop
  | requests (hpast : j.happenings now event = [.requested])
      (hstep : j.step now event = (j.requestForce, none))
  | forces (hforce : j.forceRequested = true)
      (hpast : j.happenings now event = [.did .forcedCycle])
      (hstep : j.step now event = (j.perform now .forcedCycle, some .forcedCycle))
  | ticks (hforce : j.forceRequested = false) (hdue : j.deadline ≤ now)
      (hpast : j.happenings now event = [.did .timedCycle])
      (hstep : j.step now event = (j.perform now .timedCycle, some .timedCycle))
  | rests (hforce : j.forceRequested = false) (hpast : j.happenings now event = [.rests])
      (hstep : j.step now event = ({ j with force := j.force.park }, none))
  | passes (phase : JobPhase) (hphase : ∀ result, phase ≠ .ended result)
      (hpast : j.happenings now event = []) (hstep : j.step now event = ({ j with phase }, none))

theorem Goes.advances_wakes (hj : j.Goes) (now : Nat) : j.Advances now .wakes := by
  have hpast : j.happenings now .wakes = onWaking j.phase (j.step now .wakes).2 := rfl
  obtain ⟨-, hcancelled, -⟩ | ⟨-, -, hforce, hstep⟩ | ⟨-, -, hforce, hdue, hstep⟩ |
      ⟨hidle, hstep⟩ := j.wakes_cases now
  · rw [hj.cancelled] at hcancelled
    cases hcancelled
  · rw [hstep] at hpast
    exact .forces hforce hpast hstep
  · rw [hstep] at hpast
    exact .ticks hforce hdue hpast hstep
  · rw [hstep] at hpast
    unfold rest at hstep
    cases hphase : j.phase with
    | waiting =>
      rw [hphase] at hpast hstep
      exact .rests (hidle hphase).2.1 hpast (hstep.trans (by rw [hphase]))
    | cycling =>
      rw [hphase] at hpast hstep
      exact .passes j.phase hj.phase hpast hstep
    | ended result => exact absurd hphase (hj.phase result)

theorem Goes.advances (hj : j.Goes) (now : Nat) (hevent : Continues event) :
    j.Advances now event := by
  cases event with
  | requested => exact .requests rfl rfl
  | cancelled => exact absurd rfl hevent.1
  | wakes => exact hj.advances_wakes now
  | cycleEnds result =>
    cases result with
    | error error => exact absurd rfl (hevent.2 error)
    | ok n =>
      cases hphase : j.phase with
      | cycling => exact .passes .waiting nofun rfl (by simp only [Job.step, hphase, finishCycle])
      | waiting =>
        have hstep : j.step now (.cycleEnds (.ok n)) = (j, none) := by simp only [Job.step, hphase]
        exact .passes j.phase hj.phase rfl hstep
      | ended result => exact absurd hphase (hj.phase result)

theorem Goes.step (hj : j.Goes) (now : Nat) (hevent : Continues event) :
    (j.step now event).1.Goes := by
  cases hj.advances now hevent with
  | requests _ hstep =>
    rw [hstep]
    exact ⟨hj.cancelled, hj.phase⟩
  | forces _ _ hstep =>
    rw [hstep]
    exact ⟨hj.cancelled, nofun⟩
  | ticks _ _ _ hstep =>
    rw [hstep]
    exact ⟨hj.cancelled, nofun⟩
  | rests _ _ hstep =>
    rw [hstep]
    exact ⟨hj.cancelled, hj.phase⟩
  | passes phase hphase _ hstep =>
    rw [hstep]
    exact ⟨hj.cancelled, hphase⟩

theorem Goes.run (hj : j.Goes) (hevents : Proceeds events) : (j.run events).1.Goes := by
  induction events generalizing j with
  | nil => exact hj
  | cons e rest ih =>
    obtain ⟨now, event⟩ := e
    rw [run_cons]
    exact ih (hj.step now (hevents _ List.mem_cons_self)) hevents.tail

/-- One step keeps the notifier as the requests since the last rest make it. -/
theorem Goes.fits_step {since : Option Nat} (hj : j.Goes) (hevent : Continues event)
    (h : j.force.Fits since) :
    (j.step now event).1.force.Fits
      ((j.happenings now event).foldl Happening.sinceRest since) := by
  cases hj.advances now hevent with
  | requests hpast hstep =>
    rw [hpast, hstep]
    exact h.notify
  | forces _ hpast hstep =>
    rw [hpast, hstep]
    exact j.force.listener_take
  | ticks _ _ hpast hstep =>
    rw [hpast, hstep]
    rfl
  | rests hforce hpast hstep =>
    rw [hpast, hstep]
    exact Notifier.park_eq hforce
  | passes _ _ hpast hstep =>
    rw [hpast, hstep]
    exact h

structure Tracks (j : Job) (past : List Happening) : Prop where
  fits : j.force.Fits (sinceRest past)
  pending : j.forceRequested = true ↔ IsRequested past ∨ IsLeftOver past

theorem tracks_start (interval now : Nat) : (start interval now).Tracks [] :=
  ⟨rfl, nofun, fun h => (h.elim (not_sinceForced_nil _) (not_sinceForced_nil _)).elim⟩

theorem Goes.tracks_step {past : List Happening} (hj : j.Goes) (hevent : Continues event)
    (h : j.Tracks past) : (j.step now event).1.Tracks (past ++ j.happenings now event) := by
  refine ⟨?_, ?_⟩
  · rw [sinceRest, List.foldl_append]
    exact hj.fits_step hevent h.fits
  · -- only a request or a forced start says whether a forced cycle comes next
    have hkept : ∀ {x : Happening}, x ≠ .requested → x ≠ .did .forcedCycle →
        (j.forceRequested = true ↔ IsRequested (past ++ [x]) ∨ IsLeftOver (past ++ [x])) := by
      intro x hrequest hforced
      rw [isRequested_append, isLeftOver_append]
      simpa only [hrequest, hforced, false_and, false_or, ne_eq, not_false_eq_true, true_and]
        using h.pending
    cases hj.advances now hevent with
    | requests hpast hstep =>
      rw [hpast, hstep]
      exact ⟨fun _ => .inl (isRequested_append.mpr (.inl rfl)), fun _ => j.force.isReady_notify⟩
    | forces hforce hpast hstep =>
      have hleft : (j.perform now .forcedCycle).forceRequested = true ↔
          ∃ k, sinceRest past = some (k + 2) := h.fits.isReady_take hforce
      rw [hpast, hstep, isRequested_append, isLeftOver_append]
      simpa using hleft
    | ticks _ _ hpast hstep =>
      rw [hpast, hstep]
      exact hkept nofun nofun
    | rests hforce hpast hstep =>
      have hsame : j.force.park.isReady = j.force.isReady := by
        rw [Notifier.park_eq hforce]
        exact hforce.symm
      rw [hpast, hstep, forceRequested, hsame]
      exact hkept nofun nofun
    | passes _ _ hpast hstep =>
      rw [hpast, hstep, List.append_nil]
      exact h.pending

theorem Goes.tracks_run {past : List Happening} (hj : j.Goes) (hevents : Proceeds events)
    (h : j.Tracks past) : (j.run events).1.Tracks (past ++ j.history events) := by
  induction events generalizing j past with
  | nil => rwa [history, List.append_nil]
  | cons e rest ih =>
    obtain ⟨now, event⟩ := e
    have hevent := hevents _ List.mem_cons_self
    rw [run_cons, history, ← List.append_assoc]
    exact ih (hj.step now hevent) hevents.tail (hj.tracks_step hevent h)

/-- One step keeps the forced starts between the groups of requests and those together with the
second requests to a job at rest. -/
theorem Goes.count_step {asked : Bool} {since : Option Nat} (hj : j.Goes) (now : Nat)
    (hevent : Continues event) (hasked : asked = true → j.forceRequested = true)
    (hfits : j.force.Fits since) :
    let next := (j.step now event).1
    let xs := j.happenings now event
    (xs.foldl Happening.asks asked = true → next.forceRequested = true) ∧
    requestGroups asked xs + asked.toNat ≤
      xs.count (.did .forcedCycle) + (xs.foldl Happening.asks asked).toNat ∧
    xs.count (.did .forcedCycle) + next.force.owed ≤
      j.force.owed + requestGroups asked xs + secondRequests since xs := by
  intro next xs
  have hquiet : j.forceRequested = false → asked = false := fun hforce =>
    Bool.eq_false_iff.mpr fun htrue => Bool.false_ne_true (hforce.symm.trans (hasked htrue))
  cases hj.advances now hevent with
  | requests hpast hstep =>
    have howed := hfits.owed_notify_le
    have hgroup : (if j.force.isReady then 0 else 1) ≤ requestGroups asked [.requested] := by
      cases hready : j.force.isReady with
      | true => exact Nat.zero_le _
      | false => rw [hquiet hready]; decide
    have hsecond : secondRequests since [.requested] = if since = some 1 then 1 else 0 := by
      by_cases hsince : since = some 1 <;> simp [secondRequests, occasions, hsince]
    simp only [next, xs, hpast, hstep]
    refine ⟨fun _ => j.force.isReady_notify, ?_, ?_⟩
    · cases asked <;> decide
    · have hnone : [Happening.requested].count (.did .forcedCycle) = 0 := by decide
      rw [hnone, hsecond]
      change 0 + j.force.notify.owed ≤ _
      omega
  | forces hforce hpast hstep =>
    have howed : j.force.take.owed + 1 = j.force.owed := Notifier.owed_take hforce
    have hone : [Happening.did .forcedCycle].count (.did .forcedCycle) = 1 := by decide
    simp only [next, xs, hpast, hstep, hone]
    refine ⟨nofun, ?_, ?_⟩
    · cases asked <;> decide
    · change 1 + j.force.take.owed ≤ _
      omega
  | ticks hforce hdue hpast hstep =>
    have howed := j.force.owed_leave_le
    simp only [next, xs, hpast, hstep]
    refine ⟨hasked, ?_, ?_⟩
    · cases asked <;> decide
    · change 0 + j.force.leave.owed ≤ _
      omega
  | rests hforce hpast hstep =>
    have howed := j.force.owed_park_le
    simp only [next, xs, hpast, hstep]
    refine ⟨fun htrue => absurd htrue (by simp [Happening.asks, hquiet hforce]), ?_, ?_⟩
    · cases asked <;> decide
    · change 0 + j.force.park.owed ≤ _
      omega
  | passes phase hphase hpast hstep =>
    simp only [next, xs, hpast, hstep]
    refine ⟨hasked, ?_, ?_⟩
    · change 0 + asked.toNat ≤ 0 + asked.toNat
      exact Nat.le_refl _
    · change 0 + j.force.owed ≤ _
      omega

/-- Every group of requests has its forced start, but for one that is pending at the end. There are
no more than those and one for each second request to a job at rest. -/
theorem Goes.count_run (hj : j.Goes) (hevents : Proceeds events) (asked : Bool)
    (since : Option Nat) (hasked : asked = true → j.forceRequested = true)
    (hfits : j.force.Fits since) :
    let past := j.history events
    let last := (j.run events).1
    requestGroups asked past + asked.toNat ≤
        past.count (.did .forcedCycle) + last.forceRequested.toNat ∧
      past.count (.did .forcedCycle) + last.force.owed ≤
        j.force.owed + requestGroups asked past + secondRequests since past := by
  induction events generalizing j asked since with
  | nil =>
    refine ⟨?_, Nat.le_of_eq (Nat.zero_add _)⟩
    change 0 + asked.toNat ≤ 0 + j.forceRequested.toNat
    cases asked with
    | false => exact Nat.zero_le _
    | true =>
      have hforce : j.forceRequested = true := hasked rfl
      exact Nat.le_of_eq (by rw [hforce])
  | cons e rest ih =>
    obtain ⟨now, event⟩ := e
    intro past last
    have hevent : Continues event := hevents _ List.mem_cons_self
    obtain ⟨hnext, hlower, hupper⟩ := hj.count_step now hevent hasked hfits
    obtain ⟨hlower', hupper'⟩ :=
      ih (hj.step now hevent) hevents.tail _ _ hnext (hj.fits_step hevent hfits)
    have hpast : past = j.happenings now event ++ (j.step now event).1.history rest := rfl
    have hlast : last = ((j.step now event).1.run rest).1 := rfl
    rw [hpast, hlast, requestGroups_append, secondRequests_append, List.count_append]
    constructor <;> omega

/-- While a request is pending, the next thing that a job does is to start a forced cycle. -/
theorem Goes.head_forced (hj : j.Goes) (hevents : Proceeds events) (h : j.forceRequested = true)
    {t : Nat} {action : JobAction} {rest : List (Nat × JobAction)}
    (hactions : (j.run events).2 = (t, action) :: rest) : action = .forcedCycle := by
  induction events generalizing j with
  | nil => cases hactions
  | cons e more ih =>
    obtain ⟨now, event⟩ := e
    have hevent := hevents _ List.mem_cons_self
    have hgoes := hj.step now hevent
    rw [actions_cons] at hactions
    cases hj.advances now hevent with
    | requests _ hstep =>
      rw [hstep] at hactions hgoes
      exact ih hgoes hevents.tail j.force.isReady_notify hactions
    | forces _ _ hstep =>
      rw [hstep] at hactions
      exact (Prod.mk.inj (List.cons.inj hactions).1).2.symm
    | ticks hforce =>
      rw [h] at hforce
      cases hforce
    | rests hforce =>
      rw [h] at hforce
      cases hforce
    | passes _ _ _ hstep =>
      rw [hstep] at hactions hgoes
      exact ih hgoes hevents.tail h hactions

/-- A job that has a request pending starts the forced cycle as soon as no other one is under
way. -/
theorem Goes.forced_after_cycle (hj : j.Goes) (h : j.forceRequested = true) (t n t' : Nat) :
    ((j.step t (.cycleEnds (.ok n))).1.step t' .wakes).2 = some .forcedCycle := by
  have hwaiting : (j.step t (.cycleEnds (.ok n))).1 = { j with phase := .waiting } := by
    unfold Job.step
    cases hphase : j.phase with
    | cycling => rfl
    | waiting =>
      cases j
      cases hphase
      rfl
    | ended result => exact absurd hphase (hj.phase result)
  have hready : j.force.isReady = true := h
  rw [hwaiting]
  simp [Job.step, action?, forceRequested, hj.cancelled, hready]

/-- Only a timed cycle moves the deadline. -/
theorem Goes.deadline_run (hj : j.Goes) (hevents : Proceeds events)
    (htimed : ∀ a ∈ (j.run events).2, a.2 ≠ .timedCycle) :
    (j.run events).1.deadline = j.deadline := by
  induction events generalizing j with
  | nil => rfl
  | cons e rest ih =>
    obtain ⟨now, event⟩ := e
    have hevent := hevents _ List.mem_cons_self
    have hrest := ih (hj.step now hevent) hevents.tail fun a ha =>
      htimed a (by rw [actions_cons]; exact List.mem_append_right _ ha)
    rw [run_cons, hrest]
    cases hj.advances now hevent with
    | requests _ hstep => rw [hstep]; rfl
    | forces _ _ hstep => rw [hstep]; rfl
    | ticks _ _ _ hstep =>
      refine absurd rfl (htimed (now, .timedCycle) ?_)
      rw [actions_cons, hstep]
      exact List.mem_cons_self
    | rests _ _ hstep => rw [hstep]
    | passes _ _ _ hstep => rw [hstep]

theorem Goes.timed_of_due (hj : j.Goes) (hphase : j.phase = .waiting)
    (h : j.forceRequested = false) (hdue : j.deadline ≤ now) :
    (j.step now .wakes).2 = some .timedCycle :=
  (takesTick_iff hphase hj.cancelled h).mpr hdue

/-- A job that is not cancelled and whose cycles do not fail starts a forced cycle next just when
some request was made since its last forced cycle started, or when two had come to it at rest before
that. Every group of requests between two forced starts gets a forced cycle, and besides those there
is at most one for each time that a second request came to the job at rest. Where that never happens
there is one for each group, and a forced cycle comes next just when some request was made since the
last one. While a forced cycle is to come, no other one starts, and it starts at once when none is
under way. A tick that is due stays due until a timed cycle starts, whatever forced ones come
before. -/
theorem answers_requests (interval began : Nat) (hevents : Proceeds events) :
    let job := ((start interval began).run events).1
    let past := (start interval began).history events
    (job.forceRequested = true ↔ IsRequested past ∨ IsLeftOver past) ∧
    requestGroups false past ≤ past.count (.did .forcedCycle) + job.forceRequested.toNat ∧
    past.count (.did .forcedCycle) + job.forceRequested.toNat ≤
      requestGroups false past + secondRequests none past ∧
    (secondRequests none past = 0 →
      (job.forceRequested = true ↔ IsRequested past) ∧
      past.count (.did .forcedCycle) + job.forceRequested.toNat = requestGroups false past) ∧
    (∀ now, (job.step now .wakes).2 = some .forcedCycle → job.forceRequested = true) ∧
    (job.forceRequested = true →
      (∀ more t action rest, Proceeds more → (job.run more).2 = (t, action) :: rest →
        action = .forcedCycle) ∧
      ∀ t n t', ((job.step t (.cycleEnds (.ok n))).1.step t' .wakes).2 = some .forcedCycle) ∧
    ∀ more, Proceeds more → (∀ a ∈ (job.run more).2, a.2 ≠ .timedCycle) →
      let next := (job.run more).1
      next.phase = .waiting → next.forceRequested = false →
        ∀ now ≥ job.deadline, (next.step now .wakes).2 = some .timedCycle := by
  intro job past
  have hgoes : job.Goes := (goes_start interval began).run hevents
  have hpending : job.forceRequested = true ↔ IsRequested past ∨ IsLeftOver past :=
    ((goes_start interval began).tracks_run hevents (tracks_start interval began)).pending
  obtain ⟨hlower, howed⟩ := (goes_start interval began).count_run hevents false none nofun rfl
  have hupper : past.count (.did .forcedCycle) + job.forceRequested.toNat ≤
      requestGroups false past + secondRequests none past := by
    have hnone : (start interval began).force.owed = 0 := rfl
    rw [hnone, Nat.zero_add] at howed
    exact Nat.le_trans (Nat.add_le_add_left job.force.toNat_isReady_le _) howed
  refine ⟨hpending, hlower, hupper, fun hsecond => ⟨?_, ?_⟩, fun now hforced => ?_,
    fun hforce => ⟨?_, hgoes.forced_after_cycle hforce⟩, ?_⟩
  · have hnone : ¬ IsLeftOver past := fun h => Nat.ne_of_gt h.secondRequests_pos hsecond
    rw [hpending, or_iff_left hnone]
  · rw [hsecond] at hupper
    exact Nat.le_antisymm hupper hlower
  · obtain ⟨-, -, hstep⟩ | ⟨-, -, hforce, -⟩ | ⟨-, -, -, -, hstep⟩ | ⟨-, hstep⟩ :=
      job.wakes_cases now
    · rw [hstep] at hforced
      cases hforced
    · exact hforce
    · rw [hstep] at hforced
      cases hforced
    · rw [hstep] at hforced
      cases hforced
  · exact fun more t action rest hmore hactions => hgoes.head_forced hmore hforce hactions
  · intro more hmore htimed next hwaiting hforce now hdue
    have hdeadline : next.deadline = job.deadline := hgoes.deadline_run hmore htimed
    exact (hgoes.run hmore).timed_of_due hwaiting hforce (hdeadline ▸ hdue)

/-- Two requests during a timed cycle that lasts until the next tick is due. -/
def twoWhileBusy : List (Nat × JobEvent) :=
  [(0, .wakes), (1, .requested), (2, .requested), (150, .cycleEnds (.ok 3))]

/-- The forced cycle that is due to both, from its start to its end. -/
def oneForBoth : List (Nat × JobEvent) :=
  [(150, .wakes), (160, .cycleEnds (.ok 0))]

theorem answers_twoWhileBusy :
    let job := ((start 100 0).run twoWhileBusy).1
    let past := (start 100 0).history (twoWhileBusy ++ oneForBoth)
    Proceeds (twoWhileBusy ++ oneForBoth) ∧ job.deadline = 100 ∧
      secondRequests none past = 0 ∧ requestGroups false past = 1 ∧
      (job.run oneForBoth).2 = [(150, .forcedCycle)] ∧
      ((job.run oneForBoth).1.step 160 .wakes).2 = some .timedCycle := by
  intro job past
  have hbusy : Proceeds twoWhileBusy := by simp [Proceeds, twoWhileBusy]
  have hone : Proceeds oneForBoth := by simp [Proceeds, oneForBoth]
  have hboth : Proceeds (twoWhileBusy ++ oneForBoth) := fun e he =>
    (List.mem_append.mp he).elim (hbusy e) (hone e)
  have hactions : (job.run oneForBoth).2 = [(150, .forcedCycle)] := by decide
  have hsecond : secondRequests none past = 0 := by decide
  obtain ⟨-, -, -, hexact, -⟩ := answers_requests 100 0 hboth
  obtain ⟨-, -, -, -, -, -, htick⟩ := answers_requests 100 0 hbusy
  refine ⟨hboth, rfl, hsecond, (hexact hsecond).2.symm.trans (by decide), hactions, ?_⟩
  exact htick oneForBoth hone (by rw [hactions]; decide) rfl rfl 160 (by decide)

/-- Two requests come to a job at rest before it wakes. -/
def twoBeforeWaking : List (Nat × JobEvent) :=
  [(0, .wakes), (10, .cycleEnds (.ok 0)), (10, .wakes), (20, .requested), (20, .requested),
    (20, .wakes)]

def secondCycle : List (Nat × JobEvent) :=
  [(30, .cycleEnds (.ok 0)), (30, .wakes)]

/-- Both requests were made before the forced cycle started, and yet another one is to come and
does come. -/
theorem not_oneCycle_of_twoBeforeWaking :
    let first := start 100 0
    let past := first.history (twoBeforeWaking ++ secondCycle)
    Proceeds (twoBeforeWaking ++ secondCycle) ∧
      (first.run twoBeforeWaking).1.forceRequested = true ∧
      ¬ IsRequested (first.history twoBeforeWaking) ∧
      requestGroups false past = 1 ∧ past.count (.did .forcedCycle) = 2 := by
  intro first past
  have hpast : first.history twoBeforeWaking =
      [.did .timedCycle, .rests, .requested, .requested] ++ [.did .forcedCycle] := by decide
  refine ⟨by simp [Proceeds, twoBeforeWaking, secondCycle], by decide, ?_, by decide, by decide⟩
  rw [hpast, isRequested_append]
  simp

end Job

end FilterLists
