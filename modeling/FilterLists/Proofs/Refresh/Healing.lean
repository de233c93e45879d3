import FilterLists.Proofs.Consistency
import FilterLists.Proofs.Refresh.Settling

/-! What a cycle makes of one filter, when the network has a body for it and its save does not fail.
Either the body is new to the filter, or its file was lost, and then the body is stored; or the
filter and its file have the checksum of the body already, and then both stay. -/
namespace FilterLists

/-- Under the name of the cached file stands the content of the filter, or nothing. -/
def Store.Mirrors (s : Store) (f : Filter) : Prop :=
  ∀ node, s.cached f.id = .ok node → ∃ content t, node = .file content t ∧ f.content = some content

/-- The filter had content with the checksum of this body, and a file. -/
def Filter.HadAlready (f : Filter) (start : Store) (body : Bytes) : Prop :=
  f.checksum = some (FilterLists.checksum body) ∧ start.IsCached f.id

theorem Filter.content_of_applyFetched {f g : Filter} {body : Bytes}
    (h : f.applyFetched body = (g, true)) : g.content = some body := by
  unfold applyFetched at h
  split at h
  · cases h
  · cases h
    rfl

namespace Cycle
variable {network : Network} {start s : Store} {c d : Cycle} {f : Filter} {body : Bytes}

def IsSavedFor (id : FilterId) (state : Store × Cycle) : CycleMove → Prop
  | .persists ticket faults now => ∀ g, .fetched ticket g true ∈ state.2.active → g.id = id →
    ∃ saved, (state.1.save faults now g).2 = .ok saved
  | _ => True

/-- A downloaded copy of the filter. -/
structure Restores (f : Filter) (start : Store) (body : Bytes) (g : Filter) (changed : Bool) : Prop
    where
  url : g.url = f.url
  checksum : g.checksum = some (FilterLists.checksum body)
  stored : changed = true → g.content = some body
  kept : changed = false → f.HadAlready start body

/-- A cycle that the filter takes part in, as it leaves the copy and the file of the filter. -/
structure Heals (f : Filter) (start : Store) (body : Bytes) (s : Store) (c : Cycle) : Prop where
  distinct : c.Distinct
  member : f.id ∈ c.ids
  waiting : ∀ g ∈ c.waiting, g.id = f.id → g = f.refreshCopy
  fetching : ∀ ticket g, .fetching ticket g ∈ c.active → g.id = f.id →
    g.url = f.url ∧ (g.checksum.isSome = true → f.checksum = g.checksum ∧ start.IsCached f.id)
  fetched : ∀ ticket g changed, .fetched ticket g changed ∈ c.active → g.id = f.id →
    Restores f start body g changed
  results : ∀ fresh ∈ c.results, fresh.filter.id = f.id →
    Restores f start body fresh.filter fresh.changed ∧
      s.contents f.id = if fresh.changed then .ok body else start.contents f.id
  /-- The file stays as it was until there is a result. -/
  untouched : f.id ∉ c.results.map (·.filter.id) → s.cached f.id = start.cached f.id

theorem heals_of_waiting {copies : List Filter} (hcopies : (copies.map (·.id)).Nodup)
    (hf : f.refreshCopy ∈ copies) : Heals f start body start { waiting := copies } := by
  have hmember : f.refreshCopy.id ∈ copies.map (·.id) := List.mem_map_of_mem hf
  refine ⟨distinct_of_waiting hcopies, List.mem_append_left _ hmember, fun g hg hid => ?_, by simp,
    by simp, by simp, fun _ => rfl⟩
  exact List.inj_on_of_nodup_map hcopies hg hf hid

theorem Heals.launch (h : Heals f start body s c) {faults : Faults} {limit : Nat} {g : Filter}
    (hl : c.launch? s faults limit = some (d, g)) : Heals f start body s d := by
  have hdistinct := h.distinct.launch hl
  have hmember := (ids_launch hl).mem_iff.mpr h.member
  obtain ⟨first, rest, hwaiting, rfl, hd⟩ := launch?_cases hl
  have hfirst : first ∈ c.waiting := by simp [hwaiting]
  constructor
  case distinct => exact hdistinct
  case member => exact hmember
  case waiting => exact fun e he => h.waiting e (waiting_of_launch hl he)
  case fetching =>
    intro ticket e he hid
    rcases fetching_of_launch hl he with hold | rfl
    · exact h.fetching ticket e hold hid
    · obtain ⟨hpid, hpurl⟩ := Refresh.prepare_subscription s faults first
      obtain rfl : first = f.refreshCopy := h.waiting first hfirst (hpid.symm.trans hid)
      have hresults : f.refreshCopy.id ∉ c.results.map (·.filter.id) :=
        h.distinct.notMem_results_of_waiting hfirst
      have huntouched : s.cached f.id = start.cached f.id := h.untouched hresults
      refine ⟨hpurl, fun hsum => ?_⟩
      rcases Refresh.prepare_cases s faults f.refreshCopy with ⟨hsame, hcached⟩ | ⟨hlost, -⟩
      · rw [hsame] at hsum ⊢
        obtain ⟨node, hnode⟩ := hcached hsum
        exact ⟨rfl, node, huntouched.symm.trans hnode⟩
      · rw [hlost] at hsum
        cases hsum
  case fetched =>
    exact fun ticket e changed he => h.fetched ticket e changed (fetched_of_launch hl he)
  case results => exact hd ▸ h.results
  case untouched => exact hd ▸ h.untouched

theorem Heals.receive (h : Heals f start body s c) (hbody : (network f.url).body? = some body)
    {ticket : Nat} {reply : Reply}
    (hreply : ∀ g, .fetching ticket g ∈ c.active → reply = network g.url) :
    Heals f start body s (c.receive ticket reply) := by
  constructor
  case distinct => exact h.distinct.receive ticket reply
  case waiting => exact h.waiting
  case fetching => exact fun t g hg => h.fetching t g (fetching_of_receive hg)
  case results => exact h.results
  case untouched => exact h.untouched
  case member =>
    rcases mem_ids_receive h.member ticket reply with hkept | ⟨g, e, hg, hid, happly⟩
    · exact hkept
    · have hnone := Fetch.body?_of_apply_eq_error happly
      rw [hreply g hg, (h.fetching ticket g hg hid).1, hbody] at hnone
      cases hnone
  case fetched =>
    intro t g changed hg hid
    rcases fetched_of_receive hg with hold | ⟨e, he, happly⟩
    · exact h.fetched t g changed hold hid
    · obtain ⟨hsameid, hsameurl⟩ := Fetch.apply_subscription happly
      obtain ⟨hurl, hkept⟩ := h.fetching ticket e he (hsameid.symm.trans hid)
      obtain ⟨found, hfound, hsum, hunchanged⟩ := Fetch.checksum_of_apply_eq_ok happly
      rw [hreply e he, hurl] at hfound
      obtain rfl : found = body := Option.some.inj (hfound.symm.trans hbody)
      refine ⟨hsameurl.trans hurl, hsum, fun hchanged => ?_, fun hsame => ?_⟩
      · subst hchanged
        have hanswer : reply.body? = some found := by rw [hreply e he, hurl, hbody]
        have hok := Fetch.apply_of_body hanswer e
        exact Filter.content_of_applyFetched (Except.ok.inj (hok.symm.trans happly))
      · have hold := hunchanged.mp hsame
        obtain ⟨heq, hcached⟩ := hkept (by rw [hold]; rfl)
        exact ⟨heq.trans hold, hcached⟩

/-- The downloaded copy of the filter has an outcome when it is written, and the file that belongs
to it. -/
theorem Heals.outcome (h : Heals f start body s c) {ticket : Nat} {g : Filter} {changed : Bool}
    (hg : .fetched ticket g changed ∈ c.active) (hid : g.id = f.id) (faults : Faults) (now : Instant)
    (hsave : changed = true → ∃ saved, (s.save faults now g).2 = .ok saved) :
    ∃ t, (Refresh.persist s faults now g changed).2 =
        some { filter := { g with lastUpdated := t }, changed } ∧
      (Refresh.persist s faults now g changed).1.contents f.id =
        if changed then .ok body else start.contents f.id := by
  have hrestores := h.fetched ticket g changed hg hid
  have hresults : g.id ∉ c.results.map (·.filter.id) := h.distinct.notMem_results_of_active hg
  have huntouched := h.untouched (hid ▸ hresults)
  cases changed with
  | true =>
    obtain ⟨hout, hown⟩ := Refresh.persist_saved (hsave rfl)
    rw [hid, hrestores.stored rfl] at hown
    exact ⟨_, hout, Store.contents_of_cached hown⟩
  | false =>
    obtain ⟨hout, hown, -⟩ := Refresh.persist_unchanged s faults now g
    rw [hid, huntouched] at hown
    exact ⟨_, hout, Store.contents_touched hown⟩

theorem Heals.persist (h : Heals f start body s c) {ticket : Nat} {faults : Faults} {now : Instant}
    (hsave : ∀ g, .fetched ticket g true ∈ c.active → g.id = f.id →
      ∃ saved, (s.save faults now g).2 = .ok saved) :
    Heals f start body (c.persist s faults now ticket).1 (c.persist s faults now ticket).2 := by
  have hdistinct := h.distinct.persist s faults now ticket
  rcases c.persist_cases s faults now ticket with ⟨g, changed, hg, heq⟩ | heq
  · have houtcome (hid : g.id = f.id) :=
      h.outcome hg hid faults now fun hchanged => hsave g (hchanged ▸ hg) hid
    -- the copy of another filter reaches neither the file of this one nor its result
    have hother : g.id ≠ f.id →
        (Refresh.persist s faults now g changed).1.cached f.id = s.cached f.id :=
      fun hid => Refresh.persist_cached_of_ne s faults now g changed (Ne.symm hid)
    have hids := Refresh.persist_outcome_id s faults now g changed
    have hnew : g.id ∉ c.results.map (·.filter.id) := h.distinct.notMem_results_of_active hg
    rw [heq] at hdistinct ⊢
    constructor
    case distinct => exact hdistinct
    case member =>
      apply mem_ids_persist h.distinct hg hids h.member
      intro hid
      obtain ⟨t, hout, -⟩ := houtcome hid.symm
      rw [hout]
      rfl
    case waiting => exact h.waiting
    case fetching => exact fun t e he => h.fetching t e (List.mem_filter.mp he).1
    case fetched => exact fun t e flag he => h.fetched t e flag (List.mem_filter.mp he).1
    case results =>
      intro fresh hfresh hid
      rcases List.mem_append.mp hfresh with hold | hadded
      · have hne : g.id ≠ f.id := by
          intro hsame
          exact hnew (List.mem_map.mpr ⟨fresh, hold, hid.trans hsame.symm⟩)
        obtain ⟨hrestores, hcontents⟩ := h.results fresh hold hid
        exact ⟨hrestores, (Store.contents_congr (hother hne)).trans hcontents⟩
      · have hresult := Option.mem_toList.mp hadded
        have hsame : g.id = f.id := (hids fresh hresult).symm.trans hid
        obtain ⟨t, hout, hcontents⟩ := houtcome hsame
        obtain rfl := Option.some.inj (hout.symm.trans hresult)
        obtain ⟨hurl, hsum, hstored, hkept⟩ := h.fetched ticket g changed hg hsame
        exact ⟨⟨hurl, hsum, hstored, hkept⟩, hcontents⟩
    case untouched =>
      intro hnone
      rw [List.map_append] at hnone
      by_cases hid : g.id = f.id
      · obtain ⟨t, hout, -⟩ := houtcome hid
        rw [hout] at hnone
        exact absurd (List.mem_append_right _ (List.mem_singleton.mpr hid.symm)) hnone
      · exact (hother hid).trans (h.untouched fun hmem => hnone (List.mem_append_left _ hmem))
  · rw [heq]
    exact h

theorem Heals.move (h : Heals f start body s c) (hbody : (network f.url).body? = some body)
    (limit : Nat) {move : CycleMove} (hreply : IsAnswered network (s, c) move)
    (hsave : IsSavedFor f.id (s, c) move) :
    Heals f start body (Cycle.move limit (s, c) move).1 (Cycle.move limit (s, c) move).2 := by
  cases move with
  | downloadStarts faults =>
    simp only [Cycle.move]
    cases hl : c.launch? s faults limit with
    | none => exact h
    | some launched => exact h.launch hl
  | downloadEnds ticket reply => exact h.receive hbody hreply
  | persists ticket faults now => exact h.persist hsave

theorem Heals.moves (h : Heals f start body s c) (hbody : (network f.url).body? = some body)
    {limit : Nat} {moves : List CycleMove}
    (hreplies : Throughout (IsAnswered network) limit (s, c) moves)
    (hsaves : Throughout (IsSavedFor f.id) limit (s, c) moves) :
    Heals f start body (moves.foldl (Cycle.move limit) (s, c)).1
      (moves.foldl (Cycle.move limit) (s, c)).2 :=
  (hreplies.and hsaves).preserves (fun state => Heals f start body state.1 state.2) h
    fun _ _ h hallowed => h.move hbody limit hallowed.1 hallowed.2

/-- At the end there is a result for the filter. -/
theorem Heals.exists_result (h : Heals f start body s c) (hdone : c.isDone = true) :
    ∃ fresh, Registry.landing? c.results f = some fresh ∧
      Restores f start body fresh.filter fresh.changed ∧
      s.contents f.id = if fresh.changed then .ok body else start.contents f.id := by
  obtain ⟨hwaiting, hactive⟩ := isDone_iff.mp hdone
  have hresult : f.id ∈ c.results.map (·.filter.id) := by
    simpa [ids, hwaiting, hactive] using h.member
  obtain ⟨fresh, hfresh, hid⟩ := List.mem_map.mp hresult
  obtain ⟨hrestores, hcontents⟩ := h.results fresh hfresh hid
  have hsame : Registry.sameSubscription f fresh.filter = true :=
    Registry.sameSubscription_iff.mpr ⟨hid.symm, hrestores.url.symm⟩
  exact ⟨fresh, Registry.landing?_eq_some h.distinct.results hfresh hsame, hrestores, hcontents⟩

end Cycle

/-- A filter that the network has this body for, and its file: they agree, their checksums are those
of the body, and they are the body unless the filter had content with that checksum in its file. -/
structure Healed (before : Filter) (start : Store) (body : Bytes) (f : Filter) (s : Store) :
    Prop where
  subscription : f.id = before.id ∧ f.url = before.url ∧ f.enabled = before.enabled
  agrees : ∃ content, f.content = some content ∧ s.contents f.id = .ok content ∧
    FilterLists.checksum content = FilterLists.checksum body
  checksum : f.checksum = some (FilterLists.checksum body)
  isBody : (¬ ∃ held, before.content = some held ∧ start.contents before.id = .ok held ∧
    FilterLists.checksum held = FilterLists.checksum body) → f.content = some body

/-- A file that mirrors its filter, where there is one. -/
theorem Store.Mirrors.contents {s : Store} {f : Filter} (h : s.Mirrors f) (hcached : s.IsCached f.id) :
    ∃ content, f.content = some content ∧ s.contents f.id = .ok content := by
  obtain ⟨node, hnode⟩ := hcached
  obtain ⟨content, t, rfl, hcontent⟩ := h node hnode
  exact ⟨content, hcontent, Store.contents_of_cached hnode⟩

theorem Cycle.Heals.healed {f : Filter} {start s : Store} {c : Cycle} {body : Bytes}
    (h : c.Heals f start body s) (hdone : c.isDone = true) (henabled : f.enabled = true)
    (hconsistent : f.Consistent) (hmirrors : start.Mirrors f) :
    Healed f start body (Registry.landed c.results f) s := by
  obtain ⟨fresh, hlanding, hrestores, hcontents⟩ := h.exists_result hdone
  have hsame := Registry.landed_subscription c.results f
  have hlanded : Registry.landed c.results f = Registry.takeOver fresh f := by
    simp only [Registry.landed, hlanding]
  cases hchanged : fresh.changed with
  | true =>
    rw [hchanged, if_pos rfl] at hcontents
    have hcontent : (Registry.landed c.results f).content = some body := by
      simp only [hlanded, Registry.takeOver, hchanged, henabled, Bool.and_true, if_true]
      exact hrestores.stored hchanged
    refine ⟨hsame, ⟨body, hcontent, hsame.1 ▸ hcontents, rfl⟩, ?_, fun _ => hcontent⟩
    simp only [hlanded, Registry.takeOver, hchanged, henabled, Bool.and_true, if_true]
    exact hrestores.checksum
  | false =>
    obtain ⟨hsum, hcached⟩ := hrestores.kept hchanged
    obtain ⟨content, hcontent, hfile⟩ := hmirrors.contents hcached
    rw [hchanged, if_neg Bool.false_ne_true, hfile] at hcontents
    have hkept : (Registry.landed c.results f).content = f.content ∧
        (Registry.landed c.results f).checksum = f.checksum := by
      simp only [hlanded, Registry.takeOver, hchanged, Bool.false_and, Bool.false_eq_true, if_false]
      exact ⟨trivial, trivial⟩
    have hown : FilterLists.checksum content = FilterLists.checksum body := by
      simp only [Filter.Consistent, hcontent] at hconsistent
      exact Option.some.inj (hconsistent.1.symm.trans hsum)
    refine ⟨hsame, ⟨content, hkept.1.trans hcontent, hsame.1 ▸ hcontents, hown⟩,
      hkept.2.trans hsum, fun hnot => ?_⟩
    exact absurd ⟨content, hcontent, hfile, hown⟩ hnot

end FilterLists
