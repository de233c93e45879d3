import FilterLists.Proofs.Independence
import FilterLists.Proofs.Refresh.Settling

/-! A cycle after one in which no save has failed. As long as the network answers as before, it
finds nothing new: it writes no file, tells the engine nothing and leaves the filters as they are
but for their times. -/
namespace FilterLists

namespace Store

/-- A touch is not a save and changes no content. -/
theorem touch_keeps (s : Store) (faults : Faults) (now : Instant) (f : Filter) :
    (s.touch faults now f).1.saves = s.saves ∧
      ∀ id, (s.touch faults now f).1.contents id = s.contents id := by
  constructor
  · rcases s.touch_cases faults now f with ⟨content, t, -, -, heq⟩ | ⟨e, heq⟩ <;> rw [heq]
    exact s.mapEntries_saves _
  · intro id
    obtain ⟨hown, hothers⟩ := s.touch_cached faults now f
    by_cases hid : id = f.id
    · subst hid
      exact contents_touched hown
    · exact contents_congr (hothers id hid)

end Store

theorem Refresh.persist_keeps (s : Store) (faults : Faults) (now : Instant) (f : Filter) :
    (persist s faults now f false).1.saves = s.saves ∧
      ∀ id, (persist s faults now f false).1.contents id = s.contents id := by
  have hstore : (persist s faults now f false).1 = (s.touch faults now f).1 := by
    simp only [persist, Bool.false_eq_true, if_false]
    rcases s.touch_cases faults now f with ⟨content, t, -, -, heq⟩ | ⟨e, heq⟩ <;> rw [heq]
  rw [hstore]
  exact s.touch_keeps faults now f

theorem Filter.IsKnown.mono {network : Network} {s t : Store} {f : Filter} (h : f.IsKnown network s)
    (hcached : ∀ id, s.IsCached id → t.IsCached id) : f.IsKnown network t :=
  fun body hbody => ⟨(h body hbody).1, hcached f.id (h body hbody).2⟩

/-- A known filter is still known when it is prepared, if its file can be examined. -/
theorem Filter.IsKnown.prepare {network : Network} {s : Store} {f : Filter} {faults : Faults}
    (h : f.IsKnown network s) (hstat : faults .stat = none) :
    (Refresh.prepare s faults f).IsKnown network s := by
  rcases Refresh.prepare_cases s faults f with ⟨hsame, -⟩ | ⟨hlost, hmissing⟩
  · rw [hsame]
    exact h
  · rw [hlost]
    intro body hbody
    exact absurd ⟨(h body hbody).2, hstat⟩ hmissing

/-- Results without new content change nothing but times. -/
theorem Registry.mergeFrom_of_unchanged {r : Registry} {n : Nat} {results : List Refreshed}
    (h : ∀ fresh ∈ results, fresh.changed = false) :
    (r.mergeFrom n results).2 = n ∧ (r.mergeFrom n results).1.undated = r.undated := by
  have hcount : (r.mergeFrom n results).2 = n := by
    induction results generalizing r with
    | nil => rfl
    | cons fresh rest ih =>
      have hone : (r.mergeOne fresh).2 = false := by
        unfold mergeOne
        split
        · rfl
        · simp [h fresh List.mem_cons_self]
      have hrest := ih (r := (r.mergeOne fresh).1) fun later hlater =>
        h later (List.mem_cons_of_mem fresh hlater)
      simp only [mergeFrom, hone, Bool.false_eq_true, if_false]
      exact hrest
  exact ⟨hcount, undated_mergeFrom hcount⟩

namespace Cycle
variable {network : Network} {start s : Store} {c d : Cycle}

def IsExamined (state : Store × Cycle) : CycleMove → Prop
  | .downloadStarts faults => ∀ f ∈ state.2.waiting.head?, faults .stat = none
  | _ => True

/-- A cycle that finds nothing new. -/
structure Rests (network : Network) (start s : Store) (c : Cycle) : Prop where
  distinct : c.Distinct
  waiting : ∀ f ∈ c.waiting, f.IsKnown network s
  fetching : ∀ ticket g, .fetching ticket g ∈ c.active → g.IsKnown network s
  fetched : ∀ ticket g changed, .fetched ticket g changed ∈ c.active → changed = false
  results : ∀ fresh ∈ c.results, fresh.changed = false
  contents : ∀ id, s.contents id = start.contents id
  saves : s.saves = start.saves

theorem Rests.launch (h : Rests network start s c) {faults : Faults} {limit : Nat} {g : Filter}
    (hstat : ∀ f ∈ c.waiting.head?, faults .stat = none)
    (hl : c.launch? s faults limit = some (d, g)) : Rests network start s d := by
  have hdistinct := h.distinct.launch hl
  obtain ⟨f, rest, hwaiting, rfl, hd⟩ := launch?_cases hl
  constructor
  case distinct => exact hdistinct
  case waiting => exact fun e he => h.waiting e (waiting_of_launch hl he)
  case fetching =>
    intro ticket e he
    rcases fetching_of_launch hl he with hold | rfl
    · exact h.fetching ticket e hold
    · exact (h.waiting f (by simp [hwaiting])).prepare (hstat f (by simp [hwaiting]))
  case fetched =>
    exact fun ticket e changed he => h.fetched ticket e changed (fetched_of_launch hl he)
  case results => exact hd ▸ h.results
  case contents => exact h.contents
  case saves => exact h.saves

theorem Rests.receive (h : Rests network start s c) {ticket : Nat} {reply : Reply}
    (hreply : ∀ f, .fetching ticket f ∈ c.active → reply = network f.url) :
    Rests network start s (c.receive ticket reply) := by
  constructor
  case distinct => exact h.distinct.receive ticket reply
  case waiting => exact h.waiting
  case fetching => exact fun t g hg => h.fetching t g (fetching_of_receive hg)
  case fetched =>
    intro t g changed hg
    rcases fetched_of_receive hg with hold | ⟨e, he, happly⟩
    · exact h.fetched t g changed hold
    · obtain ⟨body, hbody, -, hunchanged⟩ := Fetch.checksum_of_apply_eq_ok happly
      rw [hreply e he] at hbody
      exact hunchanged.mpr (h.fetching ticket e he body hbody).1
  case results => exact h.results
  case contents => exact h.contents
  case saves => exact h.saves

theorem Rests.persist (h : Rests network start s c) (faults : Faults) (now : Instant)
    (ticket : Nat) : Rests network start (c.persist s faults now ticket).1
      (c.persist s faults now ticket).2 := by
  have hdistinct := h.distinct.persist s faults now ticket
  rcases c.persist_cases s faults now ticket with ⟨g, changed, hg, heq⟩ | heq
  · obtain rfl : changed = false := h.fetched ticket g changed hg
    have hstays : ∀ id, s.IsCached id → (Refresh.persist s faults now g false).1.IsCached id :=
      fun id hid => Refresh.isCached_persist hid faults now g false
    obtain ⟨hsaves, hcontents⟩ := Refresh.persist_keeps s faults now g
    rw [heq] at hdistinct ⊢
    constructor
    case distinct => exact hdistinct
    case waiting => exact fun f hf => (h.waiting f hf).mono hstays
    case fetching => exact fun t e he => (h.fetching t e (List.mem_filter.mp he).1).mono hstays
    case fetched => exact fun t e flag he => h.fetched t e flag (List.mem_filter.mp he).1
    case results =>
      intro fresh hfresh
      rcases List.mem_append.mp hfresh with hold | hnew
      · exact h.results fresh hold
      · obtain ⟨t, rfl⟩ := Refresh.persist_outcome (Option.mem_toList.mp hnew)
        rfl
    case contents => exact fun id => (hcontents id).trans (h.contents id)
    case saves => exact hsaves.trans h.saves
  · rw [heq]
    exact h

theorem Rests.move (h : Rests network start s c) (limit : Nat) {move : CycleMove}
    (hreply : IsAnswered network (s, c) move) (hstat : IsExamined (s, c) move) :
    Rests network start (Cycle.move limit (s, c) move).1 (Cycle.move limit (s, c) move).2 := by
  cases move with
  | downloadStarts faults =>
    simp only [Cycle.move]
    cases hl : c.launch? s faults limit with
    | none => exact h
    | some launched => exact h.launch hstat hl
  | downloadEnds ticket reply => exact h.receive hreply
  | persists ticket faults now => exact h.persist faults now ticket

theorem Rests.moves (h : Rests network start s c) {limit : Nat} {moves : List CycleMove}
    (hreplies : Throughout (IsAnswered network) limit (s, c) moves)
    (hstat : Throughout IsExamined limit (s, c) moves) :
    Rests network start (moves.foldl (Cycle.move limit) (s, c)).1
      (moves.foldl (Cycle.move limit) (s, c)).2 :=
  (hreplies.and hstat).preserves (fun state => Rests network start state.1 state.2) h
    fun _ _ h hallowed => h.move limit hallowed.1 hallowed.2

section Progress
variable {allowed : Store × Cycle → CycleMove → Prop} {limit : Nat} {state : Store × Cycle}

theorem throughout_append {first last : List CycleMove} :
    Throughout allowed limit state (first ++ last) ↔
      Throughout allowed limit state first ∧
        Throughout allowed limit (first.foldl (Cycle.move limit) state) last := by
  induction first generalizing state with
  | nil => simp [Throughout]
  | cons move rest ih =>
    simp only [List.cons_append, Throughout, List.foldl_cons, ih, and_assoc]

theorem Throughout.of_meetsAll {env : Surroundings} {moves : List CycleMove}
    (hmeets : MeetsAll env limit state moves)
    (h : ∀ state move, Cycle.Meets env state.2 move → allowed state move) :
    Throughout allowed limit state moves := by
  induction moves generalizing state with
  | nil => trivial
  | cons move rest ih => exact ⟨h state move hmeets.1, ih hmeets.2⟩

/-- On a device that refuses nothing the cycle can be brought to its end. -/
theorem Distinct.exists_end (hc : c.Distinct) (network : Network) (limit : Nat) (s : Store) :
    ∃ moves, Throughout (IsAnswered network) limit (s, c) moves ∧
      Throughout IsExamined limit (s, c) moves ∧
      (moves.foldl (Cycle.move limit) (s, c)).2.isDone = true := by
  obtain ⟨moves, hmeets, hdone⟩ := canEnd { network } limit s c hc
  refine ⟨moves, .of_meetsAll hmeets fun state move h => ?_,
    .of_meetsAll hmeets fun state move h => ?_, hdone⟩
  · cases move with
    | downloadStarts faults => trivial
    | downloadEnds ticket reply => exact h
    | persists ticket faults now => trivial
  · cases move with
    | downloadStarts faults =>
      intro f hf
      rw [h f hf]
      rfl
    | downloadEnds ticket reply => trivial
    | persists ticket faults now => trivial

end Progress

end Cycle

namespace LiveService
variable {l : LiveService} {network : Network} {script : CycleScript}

theorem rests_lastState (hids : (l.service.registry.filters.map (·.id)).Nodup)
    (hknown : ∀ f ∈ Refresh.candidates l.service l.policy script.now script.force,
      f.IsKnown network l.service.store)
    (hreplies : l.Throughout (Cycle.IsAnswered network) script)
    (hstat : l.Throughout Cycle.IsExamined script) :
    (l.lastState script).2.Rests network l.service.store (l.lastState script).1 := by
  have hcopies := Refresh.candidates_nodup l.policy script.now script.force hids
  have hbegin : Cycle.Rests network l.service.store l.service.store
      (.begin l.service l.policy script.now script.force) :=
    ⟨Cycle.distinct_of_waiting hcopies, hknown, nofun, nofun, nofun, fun _ => rfl, rfl⟩
  exact hbegin.moves hreplies hstat

/-- A cycle that has rested changes nothing but times. -/
theorem runAlone_of_rests (hidle : l.isIdle = true)
    (hrests : (l.lastState script).2.Rests network l.service.store (l.lastState script).1)
    (hends : (l.runAlone script).isIdle = true) :
    let after := l.runAlone script
    after.ended = .ok 0 :: l.ended ∧ after.service.engine = l.service.engine ∧
      after.service.registry.undated = l.service.registry.undated ∧
      after.service.store.saves = l.service.store.saves ∧
      ∀ id, after.service.store.contents id = l.service.store.contents id := by
  obtain ⟨-, heq⟩ := runAlone_of_isIdle (isIdle_iff.mp hidle) hends
  obtain ⟨hcount, hundated⟩ :=
    Registry.mergeFrom_of_unchanged (r := l.service.registry) (n := 0) hrests.results
  have hconclude : (l.lastState script).2.conclude
        { l.service with store := (l.lastState script).1 } =
      ({ l.service with
          store := (l.lastState script).1
          registry := (l.service.registry.merge (l.lastState script).2.results).1 }, .ok 0) := by
    have hmerge : (l.service.registry.merge (l.lastState script).2.results).2 = 0 := hcount
    simp [Cycle.conclude, Refresh.conclude, hmerge]
  rw [hconclude] at heq
  intro after
  have hafter : after = _ := heq
  rw [hafter]
  exact ⟨rfl, rfl, hundated, hrests.saves, hrests.contents⟩

/-- After a forced cycle in which no save has failed, let another cycle meet the same replies, with
nothing in between, and let the device examine the cached files. It can be brought to its end, and
it ends with no filter updated: the engine is left alone, no file is saved, every cached file keeps
its bytes, and the filters keep all but their times. Downloads may fail in both cycles, and so may
touches. -/
theorem settled_of_repeated (hidle : l.isIdle = true)
    (hids : (l.service.registry.filters.map (·.id)).Nodup) (first : CycleScript)
    (hforce : first.force = true) (hreplies : l.Throughout (Cycle.IsAnswered network) first)
    (hsaves : l.Throughout Cycle.IsSaved first) (hends : (l.runAlone first).isIdle = true) :
    let between := l.runAlone first
    ∀ second : CycleScript, between.Throughout (Cycle.IsAnswered network) second →
      between.Throughout Cycle.IsExamined second →
      (∃ more, between.Throughout (Cycle.IsAnswered network)
            { second with moves := second.moves ++ more } ∧
          between.Throughout Cycle.IsExamined { second with moves := second.moves ++ more } ∧
          (between.runAlone { second with moves := second.moves ++ more }).isIdle = true) ∧
      let after := between.runAlone second
      after.isIdle = true →
        after.ended = .ok 0 :: between.ended ∧ after.service.engine = between.service.engine ∧
        after.service.registry.undated = between.service.registry.undated ∧
        after.service.store.saves = between.service.store.saves ∧
        ∀ id, after.service.store.contents id = between.service.store.contents id := by
  intro between second hsame hstat
  obtain ⟨hregistry, -⟩ := runAlone_frame (isIdle_iff.mp hidle) hends
  have hpolicy : between.policy = l.policy := by
    obtain ⟨-, heq⟩ := runAlone_of_isIdle (isIdle_iff.mp hidle) hends
    exact (congrArg LiveService.policy heq).trans rfl
  have hbetween : (between.service.registry.filters.map (·.id)).Nodup := by
    rw [show between.service.registry = _ from hregistry, Registry.map_id_merge]
    exact hids
  have hknown : ∀ f ∈ Refresh.candidates between.service between.policy second.now second.force,
      f.IsKnown network between.service.store := by
    rw [hpolicy]
    exact isKnown_of_runAlone hidle hids hforce hreplies hsaves hends second.now second.force
  have hrests := rests_lastState hbetween hknown hsame hstat
  refine ⟨?_, fun hends' => runAlone_of_rests hends hrests hends'⟩
  obtain ⟨more, hreplies', hstat', hdone⟩ :=
    hrests.distinct.exists_end network between.policy.limit (between.lastState second).1
  refine ⟨more, Cycle.throughout_append.mpr ⟨hsame, hreplies'⟩,
    Cycle.throughout_append.mpr ⟨hstat, hstat'⟩, ?_⟩
  rcases runAlone_cases (isIdle_iff.mp hends) { second with moves := second.moves ++ more } with
    ⟨-, heq⟩ | ⟨hnot, -⟩
  · rw [heq]
    rfl
  · rw [lastState, List.foldl_append] at hnot
    exact absurd (hnot.symm.trans hdone) Bool.false_ne_true

def onlyFirst : Network := fun url =>
  if url = "http://a" then .plainText "x" else .failed "connection refused"

def onlyExamined : Faults
  | .stat => none
  | _ => some (.other "Read-only file system (os error 30)")

/-- Two filters are downloaded, with an answer for the first, which is saved. -/
def firstSaved : CycleScript :=
  ⟨⟨0⟩, true, [.downloadStarts Faults.none, .downloadStarts Faults.none,
    .downloadEnds 0 (.plainText "x"), .downloadEnds 1 (.failed "connection refused"),
    .persists 0 Faults.none ⟨5⟩]⟩

/-- The same answers in another order, on a device that refuses to touch files. -/
def firstExamined : CycleScript :=
  ⟨⟨9⟩, true, [.downloadStarts onlyExamined, .downloadStarts onlyExamined,
    .downloadEnds 1 (.failed "connection refused"), .downloadEnds 0 (.plainText "x"),
    .persists 0 onlyExamined ⟨12⟩]⟩

/-- A reply for a URL answers the downloads whose working copies have the URL. -/
theorem reply_of_url {network : Network} {tasks : List Task} {ticket : Nat} {reply : Reply}
    (url : String) (hreply : reply = network url)
    (htasks : ∀ task ∈ tasks, task.ticket = ticket → task.filter.url = url) :
    ∀ f, .fetching ticket f ∈ tasks → reply = network f.url := by
  intro f hf
  have hurl : f.url = url := htasks _ hf rfl
  rw [hurl, hreply]

theorem answers_firstSaved : twoDue.Throughout (Cycle.IsAnswered onlyFirst) firstSaved := by
  refine ⟨trivial, trivial, ?_, ?_, trivial, trivial⟩
  · exact reply_of_url "http://a" rfl (by decide +kernel)
  · exact reply_of_url "http://b" rfl (by decide +kernel)

theorem saves_firstSaved : twoDue.Throughout Cycle.IsSaved firstSaved := by
  refine ⟨trivial, trivial, trivial, trivial, fun f _ => ?_, trivial⟩
  have haccepts : twoDue.service.store.accepts Faults.none f = true := by
    simp [Store.accepts, Store.allowsWriting, Faults.none, Store.cached, Store.entry, twoDue,
      Store.isReplaceable]
  exact Store.exists_saved_of_accepts haccepts ⟨5⟩

theorem answers_firstExamined :
    (twoDue.runAlone firstSaved).Throughout (Cycle.IsAnswered onlyFirst) firstExamined := by
  refine ⟨trivial, trivial, ?_, ?_, trivial, trivial⟩
  · exact reply_of_url "http://b" rfl (by decide +kernel)
  · exact reply_of_url "http://a" rfl (by decide +kernel)

theorem settled_firstExamined :
    twoDue.isIdle = true ∧ (twoDue.service.registry.filters.map (·.id)).Nodup ∧
      (twoDue.runAlone firstSaved).ended = [.ok 1] ∧
      ((twoDue.runAlone firstSaved).runAlone firstExamined).ended = [.ok 0, .ok 1] ∧
      ∀ id, ((twoDue.runAlone firstSaved).runAlone firstExamined).service.store.contents id =
        (twoDue.runAlone firstSaved).service.store.contents id := by
  have hids : (twoDue.service.registry.filters.map (·.id)).Nodup := by decide
  have hfirst : (twoDue.runAlone firstSaved).ended = [.ok 1] := by decide +kernel
  have hstat : (twoDue.runAlone firstSaved).Throughout Cycle.IsExamined firstExamined :=
    ⟨fun _ _ => rfl, fun _ _ => rfl, trivial, trivial, trivial, trivial⟩
  obtain ⟨-, hafter⟩ := settled_of_repeated (l := twoDue) rfl hids firstSaved rfl
    answers_firstSaved saves_firstSaved (by decide +kernel) firstExamined answers_firstExamined
    hstat
  obtain ⟨hended, -, -, -, hcontents⟩ := hafter (by decide +kernel)
  rw [hfirst] at hended
  exact ⟨rfl, hids, hfirst, hended, hcontents⟩

end LiveService

end FilterLists
