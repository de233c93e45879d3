import FilterLists.Proofs.Refresh.Script
import FilterLists.Proofs.Refresh.Copies
import FilterLists.Proofs.Refresh.Verdict
import FilterLists.Proofs.Registry.Merge

/-! A cycle in which no save fails. Whatever else the device refuses, and in whatever order the
moves come, each filter with an answer ends with the checksum of that answer and with a cached
file. -/
namespace FilterLists

/-- The body that a reply brings: that of a complete answer with status 200 in plain text. -/
def Reply.body? : Reply → Option Bytes
  | .answered status contentType (.ok bytes) =>
    if status = 200 ∧ Fetch.isPlainText (Fetch.contentTypeText contentType) = true then some bytes
    else none
  | _ => none

namespace Fetch
variable {reply : Reply} {f : Filter}

/-- A download succeeds just when the reply brings a body, whatever the working copy. -/
theorem apply_body? (reply : Reply) (f : Filter) :
    (∃ body, reply.body? = some body ∧ Fetch.apply reply f = .ok (f.applyFetched body)) ∨
      (reply.body? = none ∧ ∃ e, Fetch.apply reply f = .error e) := by
  unfold Reply.body? Fetch.apply
  cases reply with
  | failed cause => exact .inr ⟨rfl, _, rfl⟩
  | answered status contentType body =>
    by_cases hstatus : status = 200
    · by_cases htype : isPlainText (contentTypeText contentType) = true
      · cases body with
        | error cause => exact .inr ⟨rfl, .transferFailed f.url cause, by simp [hstatus, htype]⟩
        | ok bytes => exact .inl ⟨bytes, by simp [hstatus, htype], by simp [hstatus, htype]⟩
      · refine .inr ⟨?_, .unexpectedContentType f.url (contentTypeText contentType), ?_⟩
        · cases body with
          | error cause => rfl
          | ok bytes => simp [htype]
        · simp [hstatus, htype]
    · refine .inr ⟨?_, .unexpectedStatus f.url status, by simp [hstatus]⟩
      cases body with
      | error cause => rfl
      | ok bytes => simp [hstatus]

theorem apply_of_body {body : Bytes} (h : reply.body? = some body) (f : Filter) :
    Fetch.apply reply f = .ok (f.applyFetched body) := by
  rcases apply_body? reply f with ⟨found, hfound, hok⟩ | ⟨hnone, -⟩
  · rw [hok, Option.some.inj (hfound.symm.trans h)]
  · cases hnone.symm.trans h

theorem body?_of_apply_eq_error {e : Error} (h : Fetch.apply reply f = .error e) :
    reply.body? = none := by
  rcases apply_body? reply f with ⟨body, -, hok⟩ | ⟨hnone, -⟩
  · rw [h] at hok
    cases hok
  · exact hnone

/-- A downloaded copy has the checksum of the body, and an unchanged one has had it before. -/
theorem checksum_of_apply_eq_ok {g : Filter} {changed : Bool}
    (h : Fetch.apply reply f = .ok (g, changed)) :
    ∃ body, reply.body? = some body ∧ g.checksum = some (checksum body) ∧
      (changed = false ↔ f.checksum = some (checksum body)) := by
  rcases apply_body? reply f with ⟨body, hbody, hok⟩ | ⟨-, e, herror⟩
  · have happlied : f.applyFetched body = (g, changed) := Except.ok.inj (hok.symm.trans h)
    refine ⟨body, hbody, ?_⟩
    unfold Filter.applyFetched at happlied
    split_ifs at happlied with hsame
    · cases happlied
      exact ⟨hsame, by simp [hsame]⟩
    · cases happlied
      exact ⟨rfl, by simp [hsame]⟩
  · rw [herror] at h
    cases h

end Fetch

def Store.IsCached (s : Store) (id : FilterId) : Prop :=
  ∃ node, s.cached id = .ok node

namespace Refresh

/-- A prepared copy is as it was, and then its file is there if it has a checksum, or it has lost
its checksum, and then the file was not there or could not be examined. -/
theorem prepare_cases (s : Store) (faults : Faults) (f : Filter) :
    (prepare s faults f = f ∧ (f.checksum.isSome = true → s.IsCached f.id)) ∨
      (prepare s faults f = { f with checksum := none } ∧
        ¬ (s.IsCached f.id ∧ faults .stat = none)) := by
  unfold prepare
  rw [Store.lastModified_eq]
  cases hstat : faults .stat with
  | some e =>
    cases hsum : f.checksum with
    | none => exact .inl ⟨by simp, by simp⟩
    | some sum => exact .inr ⟨by simp, by simp⟩
  | none =>
    cases hcached : s.cached f.id with
    | ok node => exact .inl ⟨by simp [Except.toOption], fun _ => ⟨node, hcached⟩⟩
    | error e =>
      have hmissing : ¬ s.IsCached f.id := by
        rintro ⟨node, hnode⟩
        rw [hcached] at hnode
        cases hnode
      cases hsum : f.checksum with
      | none => exact .inl ⟨by simp, by simp⟩
      | some sum => exact .inr ⟨by simp [Except.toOption], fun h => hmissing h.1⟩

/-- Writing a working copy takes no cached file away. -/
theorem isCached_persist {s : Store} {id : FilterId} (h : s.IsCached id) (faults : Faults)
    (now : Instant) (f : Filter) (changed : Bool) :
    (persist s faults now f changed).1.IsCached id := by
  obtain ⟨node, hnode⟩ := h
  by_cases hid : id = f.id
  · subst hid
    cases changed with
    | true =>
      rcases persist_changed s faults now f with ⟨-, -, hown, -⟩ | ⟨-, -, hall⟩
      · exact ⟨_, hown⟩
      · exact ⟨node, (hall f.id).trans hnode⟩
    | false =>
      have hown := (persist_unchanged s faults now f).2.1
      rw [hnode] at hown
      cases node with
      | directory entries t => exact ⟨_, hown⟩
      | file content t =>
        rw [Store.touched] at hown
        split at hown <;> exact ⟨_, hown⟩
  · exact ⟨node, (persist_cached_of_ne s faults now f changed hid).trans hnode⟩

end Refresh

namespace Cycle
variable {network : Network} {copies : List Filter} {s : Store} {c d : Cycle}

def Throughout (allowed : Store × Cycle → CycleMove → Prop) (limit : Nat) :
    Store × Cycle → List CycleMove → Prop
  | _, [] => True
  | state, move :: rest =>
    allowed state move ∧ Throughout allowed limit (Cycle.move limit state move) rest

theorem Throughout.preserves {allowed : Store × Cycle → CycleMove → Prop} {limit : Nat}
    {state : Store × Cycle} {moves : List CycleMove} (holds : Store × Cycle → Prop)
    (h : Throughout allowed limit state moves) (hstart : holds state)
    (hstep : ∀ state move, holds state → allowed state move → holds (Cycle.move limit state move)) :
    holds (moves.foldl (Cycle.move limit) state) := by
  induction moves generalizing state with
  | nil => exact hstart
  | cons move rest ih => exact ih h.2 (hstep state move hstart h.1)

theorem Throughout.and {allowed also : Store × Cycle → CycleMove → Prop} {limit : Nat}
    {state : Store × Cycle} {moves : List CycleMove} (h : Throughout allowed limit state moves)
    (hand : Throughout also limit state moves) :
    Throughout (fun state move => allowed state move ∧ also state move) limit state moves := by
  induction moves generalizing state with
  | nil => trivial
  | cons move rest ih => exact ⟨⟨h.1, hand.1⟩, ih h.2 hand.2⟩

def IsAnswered (network : Network) (state : Store × Cycle) : CycleMove → Prop
  | .downloadEnds ticket reply => ∀ f, .fetching ticket f ∈ state.2.active → reply = network f.url
  | _ => True

def IsSaved (state : Store × Cycle) : CycleMove → Prop
  | .persists ticket faults now => ∀ f, .fetched ticket f true ∈ state.2.active →
    ∃ saved, (state.1.save faults now f).2 = .ok saved
  | _ => True

/-- The downloaded copy of one of the filters has the checksum of the body from the network. An
unchanged one has kept the checksum of its filter. -/
def IsBrought (network : Network) (copies : List Filter) (g : Filter) (changed : Bool) : Prop :=
  ∃ f ∈ copies, f.id = g.id ∧ f.url = g.url ∧
    (∃ body, (network f.url).body? = some body ∧ g.checksum = some (checksum body)) ∧
    (changed = false → f.checksum = g.checksum)

/-- A cycle in which no save has failed so far. -/
structure Settles (network : Network) (copies : List Filter) (s : Store) (c : Cycle) : Prop where
  distinct : c.Distinct
  waiting : ∀ f ∈ c.waiting, f ∈ copies
  fetching : ∀ ticket g, .fetching ticket g ∈ c.active → ∃ f ∈ copies, f.id = g.id ∧ f.url = g.url ∧
    (g.checksum.isSome = true → f.checksum = g.checksum ∧ s.IsCached g.id)
  fetched : ∀ ticket g changed, .fetched ticket g changed ∈ c.active →
    IsBrought network copies g changed ∧ (changed = false → s.IsCached g.id)
  results : ∀ fresh ∈ c.results,
    IsBrought network copies fresh.filter fresh.changed ∧ s.IsCached fresh.filter.id
  /-- A filter is dropped only where the network has nothing for it. -/
  complete : ∀ f ∈ copies, f.id ∉ c.ids → (network f.url).body? = none

theorem settles_of_waiting (hcopies : (copies.map (·.id)).Nodup) :
    Settles network copies s { waiting := copies } := by
  refine ⟨distinct_of_waiting hcopies, fun f hf => hf, by simp, by simp, by simp, ?_⟩
  intro f hf hnot
  exact absurd (List.mem_append_left _ (List.mem_map_of_mem hf)) hnot

theorem Settles.launch (h : Settles network copies s c) {faults : Faults} {limit : Nat} {g : Filter}
    (hl : c.launch? s faults limit = some (d, g)) : Settles network copies s d := by
  have hdistinct := h.distinct.launch hl
  have hids := ids_launch hl
  obtain ⟨f, rest, hwaiting, rfl, hd⟩ := launch?_cases hl
  have hf : f ∈ copies := h.waiting f (by simp [hwaiting])
  constructor
  case distinct => exact hdistinct
  case waiting => exact fun e he => h.waiting e (waiting_of_launch hl he)
  case fetching =>
    intro ticket e he
    rcases fetching_of_launch hl he with hold | rfl
    · exact h.fetching ticket e hold
    · obtain ⟨hid, hurl⟩ := Refresh.prepare_subscription s faults f
      refine ⟨f, hf, hid.symm, hurl.symm, fun hsum => ?_⟩
      rcases Refresh.prepare_cases s faults f with ⟨hsame, hcached⟩ | ⟨hlost, -⟩
      · rw [hsame] at hsum ⊢
        exact ⟨rfl, hcached hsum⟩
      · rw [hlost] at hsum
        cases hsum
  case fetched =>
    exact fun ticket e changed he => h.fetched ticket e changed (fetched_of_launch hl he)
  case results => exact hd ▸ h.results
  case complete =>
    exact fun e he hnot => h.complete e he fun hmem => hnot (hids.mem_iff.mpr hmem)

theorem Settles.receive (h : Settles network copies s c) (hcopies : (copies.map (·.id)).Nodup)
    {ticket : Nat} {reply : Reply}
    (hreply : ∀ f, .fetching ticket f ∈ c.active → reply = network f.url) :
    Settles network copies s (c.receive ticket reply) := by
  constructor
  case distinct => exact h.distinct.receive ticket reply
  case waiting => exact h.waiting
  case fetching => exact fun t g hg => h.fetching t g (fetching_of_receive hg)
  case results => exact h.results
  case fetched =>
    intro t g changed hg
    rcases fetched_of_receive hg with hold | ⟨e, he, happly⟩
    · exact h.fetched t g changed hold
    · obtain ⟨f, hf, hid, hurl, hkept⟩ := h.fetching ticket e he
      obtain ⟨hid', hurl'⟩ := Fetch.apply_subscription happly
      obtain ⟨body, hbody, hsum, hunchanged⟩ := Fetch.checksum_of_apply_eq_ok happly
      rw [hreply e he, ← hurl] at hbody
      have hbefore : changed = false → f.checksum = g.checksum ∧ s.IsCached g.id := by
        intro hsame
        have hold := hunchanged.mp hsame
        obtain ⟨heq, hcached⟩ := hkept (by rw [hold]; rfl)
        rw [heq, hold, hsum, hid']
        exact ⟨rfl, hcached⟩
      exact ⟨⟨f, hf, hid.trans hid'.symm, hurl.trans hurl'.symm, ⟨body, hbody, hsum⟩,
        fun hsame => (hbefore hsame).1⟩, fun hsame => (hbefore hsame).2⟩
  case complete =>
    intro f hf hnot
    by_cases hmem : f.id ∈ c.ids
    · rcases mem_ids_receive hmem ticket reply with hkept | ⟨g, e, hg, hid, happly⟩
      · exact absurd hkept hnot
      · obtain ⟨f', hf', hid', hurl', -⟩ := h.fetching ticket g hg
        have heq : f' = f := List.inj_on_of_nodup_map hcopies hf' hf (hid'.trans hid)
        have hnone := Fetch.body?_of_apply_eq_error happly
        rwa [hreply g hg, ← hurl', heq] at hnone
    · exact h.complete f hf hmem

/-- A working copy that is written leaves its cached file there, unless its save fails. -/
theorem Settles.exists_outcome (h : Settles network copies s c) {ticket : Nat} {g : Filter}
    {changed : Bool} (hg : .fetched ticket g changed ∈ c.active) (faults : Faults) (now : Instant)
    (hsave : changed = true → ∃ saved, (s.save faults now g).2 = .ok saved) :
    ∃ t, (Refresh.persist s faults now g changed).2 =
        some { filter := { g with lastUpdated := t }, changed } ∧
      (Refresh.persist s faults now g changed).1.IsCached g.id := by
  cases changed with
  | true =>
    obtain ⟨hout, hown⟩ := Refresh.persist_saved (hsave rfl)
    exact ⟨_, hout, _, hown⟩
  | false =>
    have hcached := (h.fetched ticket g false hg).2 rfl
    exact ⟨_, (Refresh.persist_unchanged s faults now g).1,
      Refresh.isCached_persist hcached faults now g false⟩

theorem Settles.persist (h : Settles network copies s c) {ticket : Nat} {faults : Faults}
    {now : Instant}
    (hsave : ∀ f, .fetched ticket f true ∈ c.active →
      ∃ saved, (s.save faults now f).2 = .ok saved) :
    Settles network copies (c.persist s faults now ticket).1
      (c.persist s faults now ticket).2 := by
  have hdistinct := h.distinct.persist s faults now ticket
  rcases c.persist_cases s faults now ticket with ⟨g, changed, hg, heq⟩ | heq
  · obtain ⟨t, hout, hown⟩ := h.exists_outcome hg faults now
      fun hchanged => hsave g (hchanged ▸ hg)
    have hperm := ids_persist h.distinct hg
      (Refresh.persist_outcome_id s faults now g changed)
    have hstays : ∀ {id}, s.IsCached id →
        (Refresh.persist s faults now g changed).1.IsCached id :=
      fun hid => Refresh.isCached_persist hid faults now g changed
    rw [heq] at hdistinct ⊢
    constructor
    case distinct => exact hdistinct
    case waiting => exact h.waiting
    case fetching =>
      intro ticket e he
      obtain ⟨f, hf, hid, hurl, hkept⟩ := h.fetching ticket e (List.mem_filter.mp he).1
      exact ⟨f, hf, hid, hurl, fun hsum => ⟨(hkept hsum).1, hstays (hkept hsum).2⟩⟩
    case fetched =>
      intro ticket e flag he
      obtain ⟨hbrought, hcached⟩ := h.fetched ticket e flag (List.mem_filter.mp he).1
      exact ⟨hbrought, fun hsame => hstays (hcached hsame)⟩
    case results =>
      intro fresh hfresh
      rcases List.mem_append.mp hfresh with hold | hnew
      · obtain ⟨hbrought, hcached⟩ := h.results fresh hold
        exact ⟨hbrought, hstays hcached⟩
      · rw [hout, Option.toList_some, List.mem_singleton] at hnew
        subst hnew
        exact ⟨(h.fetched ticket g changed hg).1, hown⟩
    case complete =>
      intro e he hnot
      refine h.complete e he fun hmem => hnot ?_
      have hkept := hperm.mem_iff.mp hmem
      rwa [hout, Option.isSome_some, if_pos rfl, List.nil_append, ← hout] at hkept
  · rw [heq]
    exact h

theorem Settles.move (h : Settles network copies s c) (hcopies : (copies.map (·.id)).Nodup)
    (limit : Nat) {move : CycleMove} (hreply : IsAnswered network (s, c) move)
    (hsave : IsSaved (s, c) move) :
    Settles network copies (Cycle.move limit (s, c) move).1 (Cycle.move limit (s, c) move).2 := by
  cases move with
  | downloadStarts faults =>
    simp only [Cycle.move]
    cases hl : c.launch? s faults limit with
    | none => exact h
    | some launched => exact h.launch hl
  | downloadEnds ticket reply => exact h.receive hcopies hreply
  | persists ticket faults now => exact h.persist hsave

theorem Settles.moves (hcopies : (copies.map (·.id)).Nodup) {limit : Nat} {moves : List CycleMove}
    (hreplies : Throughout (IsAnswered network) limit (s, { waiting := copies }) moves)
    (hsaves : Throughout IsSaved limit (s, { waiting := copies }) moves) :
    Settles network copies (moves.foldl (Cycle.move limit) (s, { waiting := copies })).1
      (moves.foldl (Cycle.move limit) (s, { waiting := copies })).2 :=
  (hreplies.and hsaves).preserves (fun state => Settles network copies state.1 state.2)
    (settles_of_waiting hcopies) fun _ _ h hallowed => h.move hcopies limit hallowed.1 hallowed.2

end Cycle

theorem Registry.landed_subscription (results : List Refreshed) (f : Filter) :
    (landed results f).id = f.id ∧ (landed results f).url = f.url ∧
      (landed results f).enabled = f.enabled := by
  unfold landed
  split
  · exact takeOver_subscription _ f
  · exact ⟨rfl, rfl, rfl⟩

/-- The filter has the checksum of what the network holds for it, and its file is there. -/
def Filter.IsKnown (network : Network) (s : Store) (f : Filter) : Prop :=
  ∀ body, (network f.url).body? = some body →
    f.checksum = some (FilterLists.checksum body) ∧ s.IsCached f.id

/-- At the end of a cycle without a failed save the filters that took part are known. -/
theorem Cycle.Settles.isKnown_landed {network : Network} {copies : List Filter} {s : Store}
    {c : Cycle} (h : c.Settles network copies s) (hcopies : (copies.map (·.id)).Nodup)
    (hdone : c.isDone = true) {live : Filter} (hlive : live.refreshCopy ∈ copies)
    (henabled : live.enabled = true) : (Registry.landed c.results live).IsKnown network s := by
  intro body hbody
  obtain ⟨hid, hurl, -⟩ : (Registry.landed c.results live).id = live.id ∧
      (Registry.landed c.results live).url = live.url ∧
      (Registry.landed c.results live).enabled = live.enabled :=
    Registry.landed_subscription c.results live
  rw [hurl] at hbody
  rw [hid]
  have hresult : live.id ∈ c.results.map (·.filter.id) := by
    by_contra hnot
    obtain ⟨hwaiting, hactive⟩ := isDone_iff.mp hdone
    have hdropped : live.id ∉ c.ids := by simpa [ids, hwaiting, hactive] using hnot
    have hnone : (network live.url).body? = none := h.complete live.refreshCopy hlive hdropped
    rw [hbody] at hnone
    cases hnone
  obtain ⟨fresh, hfresh, hsameid⟩ := List.mem_map.mp hresult
  obtain ⟨⟨f, hf, hfid, hfurl, ⟨found, hfound, hsum⟩, hkept⟩, hcached⟩ := h.results fresh hfresh
  obtain rfl : f = live.refreshCopy :=
    List.inj_on_of_nodup_map hcopies hf hlive (hfid.trans hsameid)
  have hsame : Registry.sameSubscription live fresh.filter = true :=
    Registry.sameSubscription_iff.mpr ⟨hfid, hfurl⟩
  obtain rfl : found = body := Option.some.inj (hfound.symm.trans hbody)
  refine ⟨?_, hsameid ▸ hcached⟩
  simp only [Registry.landed, Registry.landing?_eq_some h.distinct.results hfresh hsame,
    Registry.takeOver, henabled, Bool.and_true]
  cases hchanged : fresh.changed with
  | true => exact hsum
  | false => exact (hkept hchanged).trans hsum

namespace LiveService
variable {l : LiveService} {network : Network} {script : CycleScript}

def Throughout (l : LiveService) (allowed : Store × Cycle → CycleMove → Prop)
    (script : CycleScript) : Prop :=
  Cycle.Throughout allowed l.policy.limit
    (l.service.store, .begin l.service l.policy script.now script.force) script.moves

/-- After a forced cycle without a failed save the working copies of any cycle to come are of
filters that are known. -/
theorem isKnown_of_runAlone (hidle : l.isIdle = true)
    (hids : (l.service.registry.filters.map (·.id)).Nodup) (hforce : script.force = true)
    (hreplies : l.Throughout (Cycle.IsAnswered network) script)
    (hsaves : l.Throughout Cycle.IsSaved script) (hends : (l.runAlone script).isIdle = true)
    (now : Instant) (force : Bool) :
    ∀ f ∈ Refresh.candidates (l.runAlone script).service l.policy now force,
      f.IsKnown network (l.runAlone script).service.store := by
  obtain ⟨hdone, -⟩ := runAlone_of_isIdle (isIdle_iff.mp hidle) hends
  obtain ⟨hregistry, hstore⟩ := runAlone_frame (isIdle_iff.mp hidle) hends
  have hcopies := Refresh.candidates_nodup l.policy script.now script.force hids
  have hsettles : (l.lastState script).2.Settles network
      (Refresh.candidates l.service l.policy script.now script.force) (l.lastState script).1 :=
    Cycle.Settles.moves hcopies hreplies hsaves
  intro f hf
  rw [Refresh.candidates_eq, hregistry] at hf
  obtain ⟨g, hg, rfl⟩ := List.mem_map.mp hf
  obtain ⟨hmerged, hdue⟩ := List.mem_filter.mp hg
  rw [Registry.merge, Registry.mergeFrom_eq 0 hids hsettles.distinct.results] at hmerged
  obtain ⟨live, hlive, rfl⟩ := List.mem_map.mp hmerged
  obtain ⟨-, -, henabled⟩ := Registry.landed_subscription (l.lastState script).2.results live
  have hactive : l.policy.paused = false ∧ live.enabled = true := by
    simp only [Refresh.isDue, Bool.and_eq_true, Bool.not_eq_true', henabled] at hdue
    exact ⟨hdue.1, hdue.2.1⟩
  have htakesPart : Refresh.isDue l.policy script.now script.force live = true := by
    simp [Refresh.isDue, hactive, hforce]
  have hknown := hsettles.isKnown_landed hcopies hdone
    (Refresh.refreshCopy_mem_candidates hlive htakesPart) hactive.2
  rw [hstore]
  exact hknown

end LiveService

end FilterLists
