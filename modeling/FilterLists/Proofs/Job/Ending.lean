import FilterLists.Proofs.Job.Running
import FilterLists.Proofs.Refresh.Progress

/-! How a job ends. A cancellation keeps it from beginning another cycle and lets the one under way
come to its end; the first cycle that fails is its last. -/
namespace FilterLists

/-- The phase that a job comes to after a cycle with this result, unless it begins another one. -/
def JobPhase.ComesAfter (result : Except Error Nat) : JobPhase → Prop
  | .waiting => result.isOk = true
  | .cycling => False
  | .ended (.ok ()) => result.isOk = true
  | .ended (.error e) => result = .error e

def JobPhase.underWay : JobPhase → Nat
  | .cycling => 1
  | _ => 0

theorem JobPhase.underWay_eq_zero {phase : JobPhase} (h : phase ≠ .cycling) :
    phase.underWay = 0 := by
  cases phase with
  | cycling => exact absurd rfl h
  | waiting => rfl
  | ended result => rfl

/-- How the cycles so far have ended in a phase. -/
def JobPhase.Fits (ended : List (Except Error Nat)) (cancelled : Bool) : JobPhase → Prop
  | .ended (.ok _) => cancelled = true ∧ ∀ result ∈ ended, result.isOk = true
  | .ended (.error e) => ∃ earlier, ended = .error e :: earlier ∧
      ∀ result ∈ earlier, result.isOk = true
  | _ => ∀ result ∈ ended, result.isOk = true

theorem JobPhase.Fits.cancel {phase : JobPhase} {ended : List (Except Error Nat)} {cancelled : Bool}
    (h : phase.Fits ended cancelled) : phase.Fits ended true := by
  cases phase with
  | waiting => exact h
  | cycling => exact h
  | ended result =>
    cases result with
    | ok _ => exact ⟨rfl, h.2⟩
    | error e => exact h

theorem Job.step_cycleEnds {j : Job} (h : j.phase = .cycling) (now : Nat)
    (result : Except Error Nat) : (j.step now (.cycleEnds result)).1 = j.finishCycle result := by
  simp only [Job.step, h]

theorem Job.comesAfter_finishCycle (j : Job) (result : Except Error Nat) :
    (j.finishCycle result).phase.ComesAfter result := by
  cases result <;> rfl

namespace RunningJob
variable {w : RunningJob} {now : Nat} {o : Occurrence} {events : List (Nat × Occurrence)}

/-- The phase of the job fits the cycles under way and those that have ended. -/
structure Coherent (w : RunningJob) : Prop where
  underWay : w.live.cycles.length = w.job.phase.underWay
  fits : w.job.phase.Fits w.live.ended w.job.cancelled

theorem coherent_start (interval now : Nat) {l : LiveService} (hidle : l.isIdle = true)
    (hended : l.ended = []) : (start interval now l).Coherent := by
  have hcycles : l.cycles = [] := LiveService.isIdle_iff.mp hidle
  constructor
  · exact congrArg List.length hcycles
  · intro result hresult
    have hmem : result ∈ l.ended := hresult
    rw [hended] at hmem
    cases hmem

theorem Coherent.idle (h : w.Coherent) (hphase : w.job.phase ≠ .cycling) : w.live.cycles = [] :=
  List.length_eq_zero_iff.mp (h.underWay.trans (JobPhase.underWay_eq_zero hphase))

theorem Coherent.cycling (h : w.Coherent) (hphase : w.job.phase = .cycling) :
    ∃ c, w.live.cycles = [c] := by
  have hlength := h.underWay
  rw [hphase] at hlength
  exact List.length_eq_one_iff.mp hlength

/-- A cycle that is ready to end is the only one, and the job waits for it. -/
theorem Coherent.of_cycle (h : w.Coherent) {place : Nat} {c : Cycle}
    (hc : w.live.cycles[place]? = some c) :
    w.job.phase = .cycling ∧ w.live.cycles = [c] ∧ place = 0 := by
  have hphase : w.job.phase = .cycling := by
    by_contra hother
    rw [h.idle hother] at hc
    cases hc
  obtain ⟨d, hd⟩ := h.cycling hphase
  rw [hd] at hc
  cases place with
  | zero =>
    cases hc
    exact ⟨hphase, hd, rfl⟩
  | succ place => cases hc

theorem Coherent.step_end (h : w.Coherent) {place : Nat} {c : Cycle} {service : Service}
    {result : Except Error Nat} (hc : w.live.cycles[place]? = some c)
    (hstep : w.step now o =
      { job := (w.job.step now (.cycleEnds result)).1
        live := w.live.without place service result }) :
    w.step now o =
      { job := w.job.finishCycle result
        live := { w.live with service, cycles := [], ended := result :: w.live.ended } } := by
  obtain ⟨hphase, hcycles, rfl⟩ := h.of_cycle hc
  rw [hstep, Job.step_cycleEnds hphase, LiveService.without, hcycles]
  rfl

theorem Coherent.step (h : w.Coherent) (now : Nat) (o : Occurrence) : (w.step now o).Coherent := by
  obtain ⟨hunderWay, hfits⟩ := h
  cases w.effect now o with
  | requests ho haction hstep =>
    rw [hstep]
    exact ⟨hunderWay, hfits⟩
  | cancels ho haction hstep =>
    rw [hstep]
    exact ⟨hunderWay, hfits.cancel⟩
  | stops hphase hcancelled haction hstep =>
    rw [hphase] at hunderWay hfits
    rw [hstep]
    exact ⟨hunderWay, hcancelled, hfits⟩
  | begins day force action hphase hcancelled hcycle haction hstep =>
    rw [hphase] at hunderWay hfits
    have hcycling : (w.job.perform now action).phase = .cycling := by
      rcases hcycle with rfl | rfl <;> rfl
    rw [hstep]
    constructor
    · -- the new cycle is the only one, since none was under way while the job waited
      rw [hcycling]
      exact List.length_append.trans (congrArg (· + 1) hunderWay)
    · rw [hcycling]
      exact hfits
  | ends place c service result hc haction hstep =>
    have h : w.Coherent := ⟨hunderWay, hfits⟩
    rw [(h.of_cycle hc).1] at hfits
    rw [h.step_end hc hstep]
    cases result with
    | ok n => exact ⟨rfl, List.forall_mem_cons.mpr ⟨rfl, hfits⟩⟩
    | error e => exact ⟨rfl, w.live.ended, rfl, hfits⟩
  | passes haction hphase hcancelled hended hlength =>
    constructor
    · rw [hphase, hlength]
      exact hunderWay
    · rw [hphase, hcancelled, hended]
      exact hfits

theorem Coherent.run (h : w.Coherent) (events : List (Nat × Occurrence)) :
    (w.run events).Coherent := by
  induction events generalizing w with
  | nil => exact h
  | cons e rest ih => exact ih (h.step e.1 e.2)

def begun (w : RunningJob) : Nat :=
  w.live.cycles.length + w.live.ended.length

theorem cancelled_step (w : RunningJob) (now : Nat) (o : Occurrence) :
    (w.step now o).job.cancelled = true ↔ w.job.cancelled = true ∨ o = .cancelled := by
  by_cases ho : o = .cancelled
  · subst ho
    exact ⟨fun _ => .inr rfl, fun _ => rfl⟩
  · have hsame : (w.step now o).job.cancelled = w.job.cancelled := by
      cases w.effect now o with
      | requests _ _ hstep => rw [hstep]; rfl
      | cancels hcancel => exact absurd hcancel ho
      | stops _ _ _ hstep => rw [hstep]; rfl
      | begins _ _ action _ _ hcycle _ hstep =>
        rw [hstep]
        rcases hcycle with rfl | rfl <;> rfl
      | ends place c service result _ _ hstep =>
        rw [hstep]
        simp only [Job.step]
        split
        · cases result <;> rfl
        · rfl
      | passes _ _ hcancelled => exact hcancelled
    rw [hsame]
    exact ⟨.inl, fun h => h.resolve_right ho⟩

theorem cancelled_run (w : RunningJob) (events : List (Nat × Occurrence)) :
    (w.run events).job.cancelled = true ↔
      w.job.cancelled = true ∨ ∃ now, (now, .cancelled) ∈ events := by
  induction events generalizing w with
  | nil => simp [run]
  | cons e rest ih =>
    obtain ⟨now, o⟩ := e
    rw [run, ih, cancelled_step, or_assoc]
    refine or_congr_right ?_
    constructor
    · rintro (rfl | ⟨later, hlater⟩)
      · exact ⟨now, List.mem_cons_self⟩
      · exact ⟨later, List.mem_cons_of_mem _ hlater⟩
    · rintro ⟨later, hmem⟩
      rcases List.mem_cons.mp hmem with heq | hlater
      · cases heq
        exact .inl rfl
      · exact .inr ⟨later, hlater⟩

theorem Coherent.step_cancelled (h : w.Coherent) (hcancelled : w.job.cancelled = true) (now : Nat)
    (o : Occurrence) :
    (∀ action ∈ w.action? now o, action = .stop) ∧ (w.step now o).begun = w.begun := by
  cases w.effect now o with
  | requests _ haction hstep => exact ⟨by simp [haction], by rw [hstep]; rfl⟩
  | cancels _ haction hstep => exact ⟨by simp [haction], by rw [hstep]; rfl⟩
  | stops _ _ haction hstep => exact ⟨by simp [haction], by rw [hstep]; rfl⟩
  | begins _ _ _ _ hnot =>
    rw [hcancelled] at hnot
    cases hnot
  | ends place c service result hc haction hstep =>
    have hcycles := (h.of_cycle hc).2.1
    refine ⟨by simp [haction], ?_⟩
    rw [h.step_end hc hstep, begun, begun, hcycles]
    simp only [List.length_nil, List.length_cons]
    omega
  | passes haction _ _ hended hlength =>
    exact ⟨by simp [haction], by rw [begun, hended, hlength, begun]⟩

theorem Coherent.run_cancelled (h : w.Coherent) (hcancelled : w.job.cancelled = true)
    (more : List (Nat × Occurrence)) :
    (∀ action ∈ w.actions more, action = .stop) ∧ (w.run more).begun = w.begun := by
  induction more generalizing w with
  | nil => exact ⟨List.forall_mem_nil _, rfl⟩
  | cons e rest ih =>
    obtain ⟨hfirst, hbegun⟩ := h.step_cancelled hcancelled e.1 e.2
    obtain ⟨hrest, hbegun'⟩ := ih (h.step e.1 e.2) ((w.cancelled_step e.1 e.2).mpr (.inl hcancelled))
    refine ⟨fun action haction => ?_, hbegun'.trans hbegun⟩
    rcases List.mem_append.mp haction with hnow | hlater
    · exact hfirst action (Option.mem_toList.mp hnow)
    · exact hrest action hlater

/-- Since the given results a cycle has been under way, or has ended and the job has come to what
follows from that. -/
def Finishing (past : List (Except Error Nat)) (w : RunningJob) : Prop :=
  w.job.phase = .cycling ∧ w.live.ended = past ∨
    ∃ result, w.live.ended = result :: past ∧ w.job.phase.ComesAfter result

theorem Finishing.step {past : List (Except Error Nat)} (h : w.Finishing past) (hw : w.Coherent)
    (hcancelled : w.job.cancelled = true) (now : Nat) (o : Occurrence) :
    (w.step now o).Finishing past := by
  cases w.effect now o with
  | requests _ _ hstep =>
    rw [hstep]
    exact h
  | cancels _ _ hstep =>
    rw [hstep]
    exact h
  | stops hphase _ _ hstep =>
    rcases h with ⟨hcycling, -⟩ | ⟨result, hended, hafter⟩
    · rw [hphase] at hcycling
      cases hcycling
    · rw [hphase] at hafter
      rw [hstep]
      exact .inr ⟨result, hended, hafter⟩
  | begins _ _ _ _ hnot =>
    rw [hcancelled] at hnot
    cases hnot
  | ends place c service result hc _ hstep =>
    rcases h with ⟨-, hended⟩ | ⟨earlier, -, hafter⟩
    · rw [hw.step_end hc hstep]
      exact .inr ⟨_, congrArg _ hended, w.job.comesAfter_finishCycle _⟩
    · rw [(hw.of_cycle hc).1] at hafter
      cases hafter
  | passes _ hphase _ hended =>
    rw [Finishing, hphase, hended]
    exact h

theorem Finishing.run {past : List (Except Error Nat)} (h : w.Finishing past) (hw : w.Coherent)
    (hcancelled : w.job.cancelled = true) (more : List (Nat × Occurrence)) :
    (w.run more).Finishing past := by
  induction more generalizing w with
  | nil => exact h
  | cons e rest ih =>
    exact ih (h.step hw hcancelled e.1 e.2) (hw.step e.1 e.2)
      ((w.cancelled_step e.1 e.2).mpr (.inl hcancelled))

/-- A job that has ended is left alone by everything. -/
theorem Coherent.step_ended (h : w.Coherent) {result : Except Error Unit}
    (hphase : w.job.phase = .ended result) (now : Nat) (o : Occurrence) :
    w.action? now o = none ∧ (w.step now o).job.phase = .ended result ∧
      (w.step now o).live.ended = w.live.ended := by
  cases w.effect now o with
  | requests _ haction hstep => exact ⟨haction, by rw [hstep]; exact hphase, by rw [hstep]⟩
  | cancels _ haction hstep => exact ⟨haction, by rw [hstep]; exact hphase, by rw [hstep]⟩
  | stops hwaiting =>
    rw [hphase] at hwaiting
    cases hwaiting
  | begins _ _ _ hwaiting =>
    rw [hphase] at hwaiting
    cases hwaiting
  | ends place c service result hc =>
    have hcycling := (h.of_cycle hc).1
    rw [hphase] at hcycling
    cases hcycling
  | passes haction hkept _ hended => exact ⟨haction, hkept.trans hphase, hended⟩

theorem Coherent.run_ended (h : w.Coherent) {result : Except Error Unit}
    (hphase : w.job.phase = .ended result) (more : List (Nat × Occurrence)) :
    w.actions more = [] ∧ (w.run more).job.phase = .ended result ∧
      (w.run more).live.ended = w.live.ended := by
  induction more generalizing w with
  | nil => exact ⟨rfl, hphase, rfl⟩
  | cons e rest ih =>
    obtain ⟨hnone, hphase', hended⟩ := h.step_ended hphase e.1 e.2
    obtain ⟨hactions, hlast, hended'⟩ := ih (h.step e.1 e.2) hphase'
    exact ⟨by rw [actions, hnone, hactions]; rfl, hlast, hended'.trans hended⟩

/-- A cycle under way takes no notice of what the job was asked for. -/
theorem step_of_cycling (h : w.job.phase = .cycling) {j : Job} (hj : j.phase = .cycling) (now : Nat)
    (o : Occurrence) :
    (({ w with job := j } : RunningJob).step now o).live = (w.step now o).live ∧
      (({ w with job := j } : RunningJob).step now o).job.phase = (w.step now o).job.phase := by
  have hwakes : ∀ k : Job, k.phase = .cycling → k.step now .wakes = (k, none) := by
    intro k hk
    simp only [Job.step, Job.action?, Job.rest, hk]
  cases o with
  | requested => exact ⟨rfl, hj.trans h.symm⟩
  | cancelled => exact ⟨rfl, hj.trans h.symm⟩
  | wakes day =>
    simp only [step, liveAfter, action?, jobEvent?, Option.bind_some, Option.map_some,
      Option.getD_some, hwakes j hj, hwakes w.job h]
    exact ⟨rfl, hj.trans h.symm⟩
  | ends place refusal =>
    have hsame : ({ w with job := j } : RunningJob).ending? place refusal =
        w.ending? place refusal := rfl
    cases hending : w.ending? place refusal with
    | none =>
      rw [(step_ends_none hending now).2, (step_ends_none (hsame.trans hending) now).2]
      exact ⟨rfl, hj.trans h.symm⟩
    | some ending =>
      rw [(step_ends hending now).2, (step_ends (hsame.trans hending) now).2]
      refine ⟨rfl, ?_⟩
      simp only [Job.step_cycleEnds h, Job.step_cycleEnds hj]
      cases ending.2 <;> rfl
  | happens e => exact ⟨rfl, hj.trans h.symm⟩

theorem run_of_cycling {j : Job} (hj : j.phase = w.job.phase) {more : List (Nat × Occurrence)}
    (hcycling : ∀ first, first <+: more → first ≠ more → (w.run first).job.phase = .cycling) :
    (({ w with job := j } : RunningJob).run more).live = (w.run more).live ∧
      (({ w with job := j } : RunningJob).run more).job.phase = (w.run more).job.phase := by
  induction more generalizing w j with
  | nil => exact ⟨rfl, hj⟩
  | cons e rest ih =>
    have hnow : w.job.phase = .cycling := hcycling [] (List.nil_prefix) nofun
    obtain ⟨hlive, hphase⟩ := step_of_cycling hnow (hj.trans hnow) e.1 e.2
    have hnext := ih (w := w.step e.1 e.2) hphase fun first hfirst hne =>
      hcycling (e :: first) (List.cons_prefix_cons.mpr ⟨rfl, hfirst⟩)
        fun heq => hne (List.cons.inj heq).2
    rw [← hlive] at hnext
    exact hnext

theorem run_happens (w : RunningJob) (now : Nat) {events : List ServiceEvent}
    (hevents : ∀ e ∈ events, e.isBoundary = false) :
    w.run (events.map fun e => (now, .happens e)) = { w with live := w.live.run events } := by
  induction events generalizing w with
  | nil => rfl
  | cons e rest ih =>
    obtain ⟨he, hrest⟩ := List.forall_mem_cons.mp hevents
    rw [List.map_cons, run, w.step_happens now he, ih _ hrest]
    rfl

/-- A cycle under way comes to its end, where it is merged and the engine reconfigured, whatever the
job was asked for meanwhile. The merge stays when the engine refuses it. -/
structure Completes (w : RunningJob) : Prop where
  /-- Whatever the answers to its downloads are, it can be brought to its end. -/
  ready : ∀ c, w.live.cycles = [c] → ∀ (now : Nat) (replies : Nat → Reply),
    ∃ moves : List CycleMove,
      (∀ ticket reply, .downloadEnds ticket reply ∈ moves → reply = replies ticket) ∧
      let last := w.run (moves.map fun move => (now, .happens (move.event 0)))
      last.job = w.job ∧ ∃ d, last.live.cycles = [d] ∧ d.isDone = true
  concludes : ∀ c, w.live.cycles = [c] → c.isDone = true → ∀ now,
    w.step now (.ends 0 none) =
      { job := w.job.finishCycle (c.conclude w.live.service).2
        live :=
          { w.live with
            service := (c.conclude w.live.service).1
            cycles := []
            ended := (c.conclude w.live.service).2 :: w.live.ended } }
  refuses : ∀ c, w.live.cycles = [c] → c.isDone = true → c.asksEngine w.live.service = true →
    ∀ now e, w.step now (.ends 0 (some e)) =
      { job := w.job.finishCycle (.error e)
        live :=
          { w.live with
            service :=
              { w.live.service with registry := (w.live.service.registry.merge c.results).1 }
            cycles := []
            ended := .error e :: w.live.ended } }
  /-- With a cancellation the service and the phase are what they are without it, up to the end of
  the cycle. -/
  unaffected : ∀ now more,
    (∀ first, first <+: more → first ≠ more → (w.run first).job.phase = .cycling) →
      ((w.step now .cancelled).run more).live = (w.run more).live ∧
        ((w.step now .cancelled).run more).job.phase = (w.run more).job.phase

/-- No cycle begins any more. A job that waits stops without an error when it gets to run, and one
with a cycle under way comes to what follows from its result. -/
structure Stops (w : RunningJob) : Prop where
  actions : ∀ more, (∀ action ∈ w.actions more, action = .stop) ∧ (w.run more).begun = w.begun
  waiting : w.job.phase = .waiting →
    ∀ now day, (w.step now (.wakes day)).job.phase = .ended (.ok ())
  cycling : w.job.phase = .cycling → ∀ more, (w.run more).Finishing w.live.ended

/-- The job has ended with this error, which is that of its last cycle and the only one, and it
does nothing any more. -/
structure HasFailed (w : RunningJob) (e : Error) : Prop where
  phase : w.job.phase = .ended (.error e)
  first : ∃ earlier, w.live.ended = .error e :: earlier ∧ ∀ result ∈ earlier, result.isOk = true
  forGood : ∀ more, w.actions more = [] ∧ (w.run more).job.phase = .ended (.error e) ∧
    (w.run more).live.ended = w.live.ended ∧ (w.run more).live.cycles = []

theorem exists_ready {c : Cycle} (hc : w.live.cycles = [c]) (now : Nat)
    (replies : Nat → Reply) :
    ∃ moves : List CycleMove,
      (∀ ticket reply, .downloadEnds ticket reply ∈ moves → reply = replies ticket) ∧
      let last := w.run (moves.map fun move => (now, .happens (move.event 0)))
      last.job = w.job ∧ ∃ d, last.live.cycles = [d] ∧ d.isDone = true := by
  obtain ⟨moves, hreplies, hdone⟩ :=
    Cycle.exists_ready replies w.live.policy.limit w.live.service.store c
  have hevents : ∀ e ∈ moves.map (CycleMove.event 0), e.isBoundary = false := by
    intro e he
    obtain ⟨move, -, rfl⟩ := List.mem_map.mp he
    cases move <;> rfl
  have hrun := w.run_happens now hevents
  rw [List.map_map] at hrun
  have hlive : w.live = w.live.during (w.live.service.store, c) := by
    rw [LiveService.during, ← hc]
    rfl
  have hmoved := LiveService.run_during w.live (w.live.service.store, c) moves
  rw [← hlive] at hmoved
  refine ⟨moves, hreplies, ?_⟩
  intro last
  have hlast : last = _ := hrun
  rw [hlast]
  exact ⟨rfl, _, congrArg LiveService.cycles hmoved, hdone⟩

theorem Coherent.step_ends (h : w.Coherent) {c : Cycle} {refusal : Option Error} {service : Service}
    {result : Except Error Nat} (hc : w.live.cycles = [c])
    (hending : c.ending? w.live.service refusal = some (service, result)) (now : Nat) :
    w.step now (.ends 0 refusal) =
      { job := w.job.finishCycle result
        live := { w.live with service, cycles := [], ended := result :: w.live.ended } } := by
  have hplace : w.live.cycles[0]? = some c := by rw [hc]; rfl
  have hsome : w.ending? 0 refusal = some (service, result) := by
    rw [RunningJob.ending?, hplace]
    exact hending
  exact h.step_end hplace (RunningJob.step_ends hsome now).2

theorem Coherent.completes (h : w.Coherent) : w.Completes := by
  constructor
  · exact fun c hc now replies => exists_ready hc now replies
  · intro c hc hdone now
    have hending : c.ending? w.live.service none = some (c.conclude w.live.service) := if_pos hdone
    exact h.step_ends hc hending now
  · intro c hc hdone hasks now e
    have hending : c.ending? w.live.service (some e) = some
        ({ w.live.service with registry := (w.live.service.registry.merge c.results).1 },
          .error e) := by
      simp [Cycle.ending?, hdone, hasks]
    exact h.step_ends hc hending now
  · intro now more hcycling
    exact run_of_cycling (j := w.job.cancel) rfl hcycling

theorem Coherent.stops (h : w.Coherent) (hcancelled : w.job.cancelled = true) : w.Stops := by
  refine ⟨h.run_cancelled hcancelled, fun hphase now day => ?_, fun hphase => ?_⟩
  · have hwakes : w.job.step now .wakes = (w.job.perform now .stop, some .stop) := by
      simp only [Job.step, Job.action?, hphase, hcancelled, if_true]
    simp only [RunningJob.step, jobEvent?, Option.map_some, Option.getD_some, hwakes]
    rfl
  · exact Finishing.run (.inl ⟨hphase, rfl⟩) h hcancelled

/-- A cycle that has failed has ended the job with its error. -/
theorem Coherent.ended_of_failed (h : w.Coherent) {e : Error} (he : .error e ∈ w.live.ended) :
    w.job.phase = .ended (.error e) := by
  have hfits := h.fits
  cases hphase : w.job.phase with
  | waiting =>
    rw [hphase] at hfits
    cases hfits _ he
  | cycling =>
    rw [hphase] at hfits
    cases hfits _ he
  | ended result =>
    rw [hphase] at hfits
    cases result with
    | ok _ => cases hfits.2 _ he
    | error last =>
      obtain ⟨earlier, hended, hearlier⟩ := hfits
      rw [hended] at he
      rcases List.mem_cons.mp he with heq | hmem
      · cases heq
        rfl
      · cases hearlier _ hmem

theorem Coherent.hasFailed (h : w.Coherent) {e : Error} (he : .error e ∈ w.live.ended) :
    w.HasFailed e := by
  have hphase := h.ended_of_failed he
  have hfits := h.fits
  rw [hphase] at hfits
  refine ⟨hphase, hfits, fun more => ?_⟩
  obtain ⟨hactions, hlast, hended⟩ := h.run_ended hphase more
  have hidle : (w.run more).live.cycles = [] := by
    apply (h.run more).idle
    rw [hlast]
    intro hcycling
    cases hcycling
  exact ⟨hactions, hlast, hended, hidle⟩

/-- However a job and its service run, with any times, requests and outcomes: a cycle is under way
just while the job waits for it, there is never more than one, and it completes. A cancelled job
begins no cycle and stops without an error, unless the cycle that was under way fails. A job ends
with the error of the first cycle that fails, and in no other way. A runner starts that job and no
other. -/
theorem job_ends_for_good (interval began : Nat) {l : LiveService} (hidle : l.isIdle = true)
    (hended : l.ended = []) (events : List (Nat × Occurrence)) :
    let w := (start interval began l).run events
    (({} : JobRunner).withRefresh (start interval began l).job).jobs = [Job.start interval began] ∧
    (w.job.phase = .cycling ∧ w.live.cycles.length = 1 ∧ w.Completes ∨
      w.job.phase ≠ .cycling ∧ w.live.cycles = []) ∧
    ((∃ now, (now, .cancelled) ∈ events) → w.Stops) ∧
    (∀ e, .error e ∈ w.live.ended → w.HasFailed e) ∧
    ∀ result, w.job.phase = .ended result →
      (result = .ok () ∧ (∃ now, (now, .cancelled) ∈ events) ∧ ∀ r ∈ w.live.ended, r.isOk = true) ∨
      ∃ e, result = .error e ∧ w.live.ended.head? = some (.error e) := by
  intro w
  have h : w.Coherent := (coherent_start interval began hidle hended).run events
  have hcancelled : w.job.cancelled = true ↔ ∃ now, (now, .cancelled) ∈ events :=
    (cancelled_run _ events).trans (or_iff_right Bool.false_ne_true)
  refine ⟨rfl, ?_, fun hcancel => h.stops (hcancelled.mpr hcancel), fun e => h.hasFailed,
    fun result hphase => ?_⟩
  · by_cases hphase : w.job.phase = .cycling
    · obtain ⟨c, hc⟩ := h.cycling hphase
      exact .inl ⟨hphase, by rw [hc]; rfl, h.completes⟩
    · exact .inr ⟨hphase, h.idle hphase⟩
  · have hfits := h.fits
    rw [hphase] at hfits
    cases result with
    | ok _ => exact .inl ⟨rfl, hcancelled.mp hfits.1, hfits.2⟩
    | error e =>
      obtain ⟨earlier, hlast, -⟩ := hfits
      exact .inr ⟨e, rfl, by rw [hlast]; rfl⟩

def oneWaiting : LiveService :=
  { service :=
      { registry := { filters := [{ id := 1, url := "http://a", enabled := true }] }
        store := { path := "cache" }
        engine := { running := true } } }

/-- A request and the cancellation come while the first cycle downloads. -/
def cancelledMidway : List (Nat × Occurrence) :=
  [(0, .wakes ⟨0⟩), (0, .happens (.downloadStarts 0 Faults.none)), (5, .requested), (6, .cancelled),
    (20, .happens (.downloadEnds 0 0 (.plainText "||ads.example^"))),
    (20, .happens (.persists 0 0 Faults.none ⟨20⟩)), (20, .ends 0 none),
    (1000, .wakes ⟨1000⟩)]

/-- The cycle is merged and the engine serves its rule, and the request stays unanswered. -/
theorem stops_of_cancelledMidway :
    let w := (start 60000 0 oneWaiting).run cancelledMidway
    oneWaiting.isIdle = true ∧ oneWaiting.ended = [] ∧ w.begun = 1 ∧ w.live.ended = [.ok 1] ∧
      w.live.service.engine.rules.totalRules = 1 ∧ w.job.forceRequested = true ∧
      w.job.phase = .ended (.ok ()) ∧ w.Stops := by
  intro w
  obtain ⟨-, -, hstops, -⟩ := job_ends_for_good 60000 0 (l := oneWaiting) rfl rfl cancelledMidway
  exact ⟨rfl, rfl, by decide +kernel, by decide +kernel, by decide +kernel, by decide +kernel, rfl,
    hstops ⟨6, by simp [cancelledMidway]⟩⟩

end RunningJob

end FilterLists
