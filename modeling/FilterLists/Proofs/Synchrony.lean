import FilterLists.Proofs.Identity
import FilterLists.Proofs.Refresh.Script
import FilterLists.Proofs.Registry.Merge

/-! The content that a filter holds is in its file whenever no cycle is under way. In between the
file may be ahead: a cycle has written it and will bring the same content to the filter when it
ends. -/
namespace FilterLists

/-- The file holds exactly this content, or it was deleted from outside. -/
def Store.Holds (s : Store) (gone : FilterId → Prop) (id : FilterId) (content : Bytes) : Prop :=
  (∃ t, s.cached id = .ok (.file content t)) ∨ (s.cached id = .error .notFound ∧ gone id)

variable {gone : FilterId → Prop}

namespace Store
variable {s t : Store} {id : FilterId} {content : Bytes}

theorem Holds.congr (h : s.Holds gone id content) (heq : t.cached id = s.cached id) :
    t.Holds gone id content := by
  unfold Holds
  rw [heq]
  exact h

theorem Holds.touched {faults : Faults} {now : Instant} (h : s.Holds gone id content)
    (heq : t.cached id = touched faults now (s.cached id)) : t.Holds gone id content := by
  rcases h with ⟨modified, hfile⟩ | ⟨hnone, hgone⟩
  · left
    rw [heq, hfile, Store.touched]
    split <;> exact ⟨_, rfl⟩
  · right
    rw [heq, hnone]
    exact ⟨rfl, hgone⟩

/-- A deletion from outside is the one change that takes a content away. -/
theorem Holds.erase (h : s.Holds gone id content) {other : FilterId} (hgone : gone other) :
    (s.erase (fileName other)).Holds gone id content := by
  by_cases hother : id = other
  · subst hother
    rcases s.cached_erase_self id with hnone | hsame
    · exact .inr ⟨hnone, hgone⟩
    · exact h.congr hsame
  · exact h.congr (s.cached_erase_of_ne hother)

end Store

/-- The filter agrees with its file, or will when the cycle that has written the file ends. -/
structure Filter.Synced (gone : FilterId → Prop) (s : Store) (cycles : List Cycle) (f : Filter) :
    Prop where
  pending : ∀ c ∈ cycles, ∀ fresh ∈ c.results, fresh.changed = true → fresh.filter.id = f.id →
    s.Holds gone f.id (fresh.filter.content.getD [])
  settled : (∀ c ∈ cycles, ∀ fresh ∈ c.results, fresh.changed = true → fresh.filter.id ≠ f.id) →
    ∀ content, f.content = some content → s.Holds gone f.id content
  /-- A filter that was disabled since its cycle began holds nothing. -/
  copied : ∀ c ∈ cycles, f.id ∈ c.ids → f.enabled = true ∨ f.content = none

namespace Filter.Synced
variable {s t : Store} {cycles : List Cycle} {f g : Filter}

theorem of_same_id (h : f.Synced gone s cycles) (hid : g.id = f.id)
    (hcontent : ∀ content, g.content = some content →
      f.content = some content ∨ s.Holds gone f.id content)
    (hcopied : f.enabled = true ∨ f.content = none → g.enabled = true ∨ g.content = none) :
    g.Synced gone s cycles := by
  refine ⟨?_, ?_, ?_⟩
  · rw [hid]
    exact h.pending
  · rw [hid]
    intro hnone content hg
    rcases hcontent content hg with hf | hholds
    · exact h.settled hnone content hf
    · exact hholds
  · rw [hid]
    exact fun c hc hmem => hcopied (h.copied c hc hmem)

theorem of_store (h : f.Synced gone s cycles)
    (hstore : ∀ content, s.Holds gone f.id content → t.Holds gone f.id content) :
    f.Synced gone t cycles :=
  ⟨fun c hc fresh hfresh hchanged hid => hstore _ (h.pending c hc fresh hfresh hchanged hid),
    fun hnone content hf => hstore _ (h.settled hnone content hf), h.copied⟩

theorem loaded {faults : Faults} (h : f.Synced gone s cycles) (henabled : f.enabled = true)
    (hl : s.load faults f = .ok g) : g.Synced gone s cycles := by
  rcases s.load_cases faults f with ⟨content, modified, hcached, heq⟩ | ⟨e, heq⟩
  · cases heq.symm.trans hl
    refine h.of_same_id rfl (fun content' hcontent => .inr (.inl ⟨modified, ?_⟩))
      (fun _ => .inl henabled)
    cases hcontent
    exact hcached
  · cases heq.symm.trans hl

theorem loadEnabled {faults : Filter → Faults} (h : f.Synced gone s cycles) :
    (Registry.loadEnabled (fun f => s.load (faults f) f) f).Synced gone s cycles := by
  unfold Registry.loadEnabled
  split_ifs with henabled
  · beta_reduce
    cases hl : s.load (faults f) f with
    | error e => exact h
    | ok loaded => exact h.loaded henabled hl
  · exact h

theorem switch {faults : Filter → Faults} (h : f.Synced gone s cycles) (enabled : Bool) :
    (Registry.switch (fun f => s.load (faults f) f) enabled f).Synced gone s cycles := by
  cases enabled with
  | false =>
    exact h.of_same_id rfl (fun content hcontent => by cases hcontent) (fun _ => .inr rfl)
  | true =>
    have hswitched : ({ f with enabled := true } : Filter).Synced gone s cycles :=
      h.of_same_id rfl (fun content hcontent => .inl hcontent) (fun _ => .inl rfl)
    simp only [Registry.switch, if_true]
    cases hl : s.load (faults { f with enabled := true }) { f with enabled := true } with
    | error e =>
      exact hswitched.of_same_id rfl (fun content hcontent => .inl hcontent) (fun _ => .inl rfl)
    | ok loaded => exact hswitched.loaded rfl hl

/-- A move of the cycle that brings the filter no new content keeps the agreement. -/
theorem of_results {c d : Cycle} {added : List Refreshed} (h : f.Synced gone s [c])
    (hstore : ∀ content, s.Holds gone f.id content → t.Holds gone f.id content)
    (hresults : d.results = c.results ++ added) (hids : d.ids ⊆ c.ids)
    (hadded : ∀ fresh ∈ added, fresh.changed = true → fresh.filter.id ≠ f.id) :
    f.Synced gone t [d] := by
  obtain ⟨hpending, hsettled, hcopied⟩ := h
  simp only [List.forall_mem_singleton] at hpending hsettled hcopied
  refine ⟨?_, ?_, ?_⟩ <;> simp only [List.forall_mem_singleton, hresults]
  · intro fresh hfresh hchanged hid
    rcases List.mem_append.mp hfresh with hold | hnew
    · exact hstore _ (hpending fresh hold hchanged hid)
    · exact absurd hid (hadded fresh hnew hchanged)
  · intro hnone content hcontent
    exact hstore _ (hsettled (fun fresh hfresh => hnone fresh (List.mem_append_left _ hfresh))
      content hcontent)
  · exact fun hmem => hcopied (hids hmem)

/-- The cycle that writes a file has the new content among its results from then on. -/
theorem of_written {c d : Cycle} {fresh : Refreshed} {now : Instant} (h : f.Synced gone s [c])
    (hfile : t.cached f.id = .ok (.file (fresh.filter.content.getD []) now))
    (hid : fresh.filter.id = f.id) (hchanged : fresh.changed = true)
    (hfirst : f.id ∉ c.results.map (·.filter.id)) (hresults : d.results = c.results ++ [fresh])
    (hids : d.ids ⊆ c.ids) : f.Synced gone t [d] := by
  refine ⟨?_, ?_, ?_⟩ <;> simp only [List.forall_mem_singleton, hresults]
  · intro other hother _ hsame
    rcases List.mem_append.mp hother with hold | hnew
    · exact absurd (List.mem_map.mpr ⟨other, hold, hsame⟩) hfirst
    · rw [List.mem_singleton.mp hnew]
      exact .inl ⟨now, hfile⟩
  · intro hnone
    have hadded := List.mem_append_right c.results (List.mem_singleton_self fresh)
    exact absurd hid (hnone fresh hadded hchanged)
  · exact fun hmem => h.copied c (List.mem_singleton_self c) (hids hmem)

/-- Writing a downloaded working copy keeps the agreement. -/
theorem persist {c : Cycle} (h : f.Synced gone s [c]) (hc : c.Distinct) (faults : Faults)
    (now : Instant) (ticket : Nat) :
    f.Synced gone (c.persist s faults now ticket).1 [(c.persist s faults now ticket).2] := by
  have hids := c.ids_persist_subset s faults now ticket
  rcases c.persist_cases s faults now ticket with ⟨g, changed, hg, heq⟩ | heq
  · rw [heq] at hids ⊢
    by_cases hid : g.id = f.id
    · cases changed with
      | true =>
        rcases Refresh.persist_changed s faults now g with ⟨_, hout, hown, _⟩ | ⟨_, hout, hall⟩
        · have hfirst : f.id ∉ c.results.map (·.filter.id) := by
            rw [← hid]
            exact hc.notMem_results_of_active hg
          rw [hout] at hids ⊢
          exact h.of_written (hid ▸ hown) hid rfl hfirst rfl hids
        · rw [hout] at hids ⊢
          exact h.of_results (fun content hholds => hholds.congr (hall f.id)) rfl hids (by simp)
      | false =>
        obtain ⟨hout, hown, _⟩ := Refresh.persist_unchanged s faults now g
        rw [hid] at hown
        rw [hout] at hids ⊢
        exact h.of_results (fun content hholds => hholds.touched hown) rfl hids (by simp)
    · refine h.of_results (fun content hholds => hholds.congr
        (Refresh.persist_cached_of_ne s faults now g changed (Ne.symm hid))) rfl hids ?_
      intro fresh hfresh _ hfid
      obtain ⟨date, rfl⟩ := Refresh.persist_outcome (Option.mem_toList.mp hfresh)
      exact hid hfid
  · rw [heq]
    exact h

theorem landed {c : Cycle} (h : f.Synced gone s [c]) (hc : c.Distinct)
    (hurls : ∀ fresh ∈ c.results, f.id = fresh.filter.id → f.url = fresh.filter.url) :
    (Registry.landed c.results f).Synced gone s [] := by
  obtain ⟨hpending, hsettled, hcopied⟩ := h
  simp only [List.forall_mem_singleton] at hpending hsettled hcopied
  refine ⟨by simp, fun _ => ?_, by simp⟩
  unfold Registry.landed
  cases hlanding : Registry.landing? c.results f with
  | none =>
    refine hsettled (fun fresh hfresh _ hid => ?_)
    have hnot := List.find?_eq_none.mp hlanding fresh hfresh
    exact hnot (Registry.sameSubscription_iff.mpr ⟨hid.symm, hurls fresh hfresh hid.symm⟩)
  | some fresh =>
    obtain ⟨hfresh, hsame⟩ := Registry.of_landing?_eq_some hlanding
    have hid : fresh.filter.id = f.id := (Registry.sameSubscription_iff.mp hsame).1.symm
    simp only [(Registry.takeOver_subscription fresh f).1]
    intro content hcontent
    cases hchanged : fresh.changed with
    | false =>
      have hkept : f.content = some content := by
        simpa [Registry.takeOver, hchanged] using hcontent
      refine hsettled (fun other hother hnew hsame => ?_) content hkept
      have heq : other = fresh :=
        List.inj_on_of_nodup_map hc.results hother hfresh (hsame.trans hid.symm)
      rw [heq, hchanged] at hnew
      cases hnew
    | true =>
      cases henabled : f.enabled with
      | false =>
        -- a filter with a working copy was enabled, and gave up its content since
        have hcopy : f.id ∈ c.ids := by
          rw [← hid, Cycle.ids_eq_map]
          exact List.mem_map_of_mem (Cycle.mem_copies_of_results hfresh)
        have hnone : f.content = none := by simpa [henabled] using hcopied hcopy
        simp [Registry.takeOver, hchanged, henabled, hnone] at hcontent
      | true =>
        have hnew : fresh.filter.content = some content := by
          simpa [Registry.takeOver, hchanged, henabled] using hcontent
        have hfile := hpending fresh hfresh hchanged hid
        rw [hnew] at hfile
        exact hfile

end Filter.Synced

namespace LiveService

/-- What holds of the filters and their files at every moment of a run. -/
structure Synchronous (gone : FilterId → Prop) (l : LiveService) : Prop where
  identified : l.Identified
  adds : ∀ f, .appending f ∈ l.adds → f.content = none
  filters : ∀ f ∈ l.service.registry.filters, f.Synced gone l.service.store l.cycles

variable {l : LiveService}

/-- A filter that is about to be listed holds nothing, and no cycle has a copy of it. -/
theorem Synchronous.synced_appending (h : l.Synchronous gone) {f : Filter}
    (hf : .appending f ∈ l.adds) : f.Synced gone l.service.store l.cycles := by
  have hnone := h.adds f hf
  refine ⟨fun c hc fresh hfresh _ hid => ?_, fun _ content hcontent => ?_, fun _ _ _ => .inr hnone⟩
  · have hcopy := h.identified.copies c hc fresh.filter (Cycle.mem_copies_of_results hfresh)
    exact absurd hid.symm (hcopy.2.2 f hf)
  · rw [hnone] at hcontent
    cases hcontent

/-- The changes of the registry between the beginning of a cycle and its end. -/
theorem Synchronous.filters_between (h : l.Synchronous gone) {e : ServiceEvent}
    (hend : ∀ place, e ≠ .cycleEnds place) :
    ∀ f ∈ (l.step e).service.registry.filters, f.Synced gone l.service.store l.cycles := by
  have hkept : ∀ f ∈ (l.step e).service.registry.filters,
      f.Synced gone l.service.store l.cycles ∧ f.id ≠ 0 := by
    refine forall_filters_step e (fun f hf => ?_) (fun f hf => ?_) (fun faults enabled f hf => ?_)
      (fun faults f id hid hf => ?_) (fun place c heq _ => absurd heq (hend place))
    · exact ⟨h.filters f hf, h.identified.ne_zero f.id (mem_ids_of_filter hf)⟩
    · exact ⟨h.synced_appending hf, h.identified.ne_zero f.id (mem_ids_of_appending hf)⟩
    · have hsame :=
        (Registry.switch_subscription (l.service.store.keeps_load faults) enabled f).1
      exact ⟨hf.1.switch enabled, fun hzero => hf.2 (hsame.symm.trans hzero)⟩
    · obtain rfl := hid hf.2
      have hsame := (Registry.loadEnabled_subscription (l.service.store.keeps_load faults) f).1
      exact ⟨hf.1.loadEnabled, fun hzero => hf.2 (hsame.symm.trans hzero)⟩
  exact fun f hf => (hkept f hf).1

theorem eq_singleton_of_getElem? {cycles : List Cycle} {place : Nat} {c : Cycle}
    (hone : cycles.length ≤ 1) (hc : cycles[place]? = some c) : cycles = [c] ∧ place = 0 := by
  obtain ⟨hlt, heq⟩ := List.getElem?_eq_some_iff.mp hc
  have hlength : cycles.length = 1 := by omega
  obtain ⟨only, rfl⟩ := List.length_eq_one_iff.mp hlength
  obtain rfl : place = 0 := by simpa using hlt
  exact ⟨by simpa using heq, rfl⟩

theorem Synchronous.filters_cycleEnds (h : l.Synchronous gone) (hone : l.cycles.length ≤ 1)
    (place : Nat) :
    let after := l.step (.cycleEnds place)
    ∀ f ∈ after.service.registry.filters, f.Synced gone after.service.store after.cycles := by
  intro after
  rcases l.cycleEnds_cases place with ⟨c, hc, _, hservice, hended, _⟩ | heq
  · obtain ⟨hcycles, rfl⟩ := eq_singleton_of_getElem? hone hc
    have hmem : c ∈ l.cycles := by simp [hcycles]
    have hdistinct := h.identified.cycles c hmem
    rw [hservice, hended, hcycles, Cycle.registry_conclude, Cycle.store_conclude,
      Registry.merge, Registry.mergeFrom_eq 0 h.identified.filters_nodup hdistinct.results]
    intro f hf
    obtain ⟨g, hg, rfl⟩ := List.mem_map.mp hf
    refine Filter.Synced.landed (hcycles ▸ h.filters g hg) hdistinct ?_
    intro fresh hfresh
    have hcopy := h.identified.copies c hmem fresh.filter (Cycle.mem_copies_of_results hfresh)
    exact hcopy.2.1 g hg
  · rw [show after = l from heq]
    exact h.filters

theorem Synchronous.filters_cycleBegins (h : l.Synchronous gone) {now : Instant} {force : Bool}
    (hone : (l.step (.cycleBegins now force)).cycles.length ≤ 1) :
    ∀ f ∈ l.service.registry.filters,
      f.Synced gone l.service.store (l.step (.cycleBegins now force)).cycles := by
  have hnone : l.cycles = [] := by
    simp only [step, List.length_append, List.length_singleton] at hone
    exact List.length_eq_zero_iff.mp (by omega)
  intro f hf
  obtain ⟨_, hsettled, _⟩ := h.filters f hf
  rw [hnone] at hsettled
  simp only [step, hnone, List.nil_append]
  refine ⟨by simp [Cycle.begin], fun _ => hsettled (by simp), ?_⟩
  simp only [List.forall_mem_singleton, Cycle.ids_eq_map]
  intro hcopy
  obtain ⟨g, hg, hid⟩ := List.mem_map.mp hcopy
  obtain ⟨g', hg', henabled, hid', _⟩ := mem_copies_begin hg
  rw [List.inj_on_of_nodup_map h.identified.filters_nodup hf hg' (hid'.trans hid).symm]
  exact .inl henabled

/-- A removal deletes the file of a filter that is no longer listed. -/
theorem Synchronous.filters_removeProceeds (h : l.Synchronous gone) {place : Nat} {faults : Faults}
    {request : RemoveRequest} (hrequest : l.removals[place]? = some request) :
    ∀ f ∈ l.service.registry.filters,
      f.Synced gone (request.step l.service.store faults).1 l.cycles := by
  intro f hf
  cases request with
  | answered result => exact h.filters f hf
  | deleting g =>
    have hne : f.id ≠ g.id := by
      obtain ⟨_, _, hapart⟩ := List.nodup_append.mp h.identified.distinct
      refine hapart f.id (List.mem_map_of_mem hf) g.id (List.mem_append_right _ ?_)
      exact List.mem_filterMap.mpr ⟨_, List.mem_of_getElem? hrequest, rfl⟩
    exact (h.filters f hf).of_store (fun content hholds =>
      hholds.congr (l.service.store.remove_cached_of_ne faults g hne))

theorem Synchronous.filters_downloadStarts (h : l.Synchronous gone) (hone : l.cycles.length ≤ 1)
    (place : Nat) (faults : Faults) :
    let after := l.step (.downloadStarts place faults)
    ∀ f ∈ after.service.registry.filters, f.Synced gone after.service.store after.cycles := by
  simp only [step]
  cases hlaunched : l.cycles[place]?.bind
    (Cycle.launch? l.service.store faults l.policy.limit) with
  | none => exact h.filters
  | some started =>
    obtain ⟨launched, g⟩ := started
    obtain ⟨c, hc, hl⟩ := Option.bind_eq_some_iff.mp hlaunched
    obtain ⟨hcycles, rfl⟩ := eq_singleton_of_getElem? hone hc
    have hids := Cycle.ids_launch hl
    obtain ⟨_, rest, _, _, rfl⟩ := Cycle.launch?_cases hl
    intro f hf
    have hf' := h.filters f hf
    rw [hcycles] at hf' ⊢
    exact hf'.of_results (fun content hholds => hholds) (List.append_nil _).symm hids.subset
      (by simp)

theorem Synchronous.filters_downloadEnds (h : l.Synchronous gone) (hone : l.cycles.length ≤ 1)
    (place ticket : Nat) (reply : Reply) :
    let after := l.step (.downloadEnds place ticket reply)
    ∀ f ∈ after.service.registry.filters, f.Synced gone after.service.store after.cycles := by
  intro after f hf
  have hf' := h.filters f hf
  simp only [after, step]
  cases hcycles : l.cycles with
  | nil =>
    rw [hcycles] at hf'
    rw [List.modify_nil]
    exact hf'
  | cons c rest =>
    obtain rfl : rest = [] := by simpa [hcycles] using hone
    rw [hcycles] at hf'
    cases place with
    | zero =>
      exact hf'.of_results (d := c.receive ticket reply) (fun content hholds => hholds)
        (List.append_nil _).symm Cycle.ids_receive.subset (by simp)
    | succ place =>
      rw [List.modify_succ_cons, List.modify_nil]
      exact hf'

theorem Synchronous.filters_persists (h : l.Synchronous gone) (hone : l.cycles.length ≤ 1)
    (place ticket : Nat) (faults : Faults) (now : Instant) :
    let after := l.step (.persists place ticket faults now)
    ∀ f ∈ after.service.registry.filters, f.Synced gone after.service.store after.cycles := by
  simp only [step]
  cases hc : l.cycles[place]? with
  | none => exact h.filters
  | some c =>
    obtain ⟨hcycles, rfl⟩ := eq_singleton_of_getElem? hone hc
    intro f hf
    have hf' := h.filters f hf
    rw [hcycles] at hf' ⊢
    exact hf'.persist (h.identified.cycles c (by simp [hcycles])) faults now ticket

theorem Synchronous.filters_step (h : l.Synchronous gone) (e : ServiceEvent)
    (hone : l.cycles.length ≤ 1) (hone' : (l.step e).cycles.length ≤ 1)
    (hgone : ∀ id, e = .fileVanishes id → gone id) :
    ∀ f ∈ (l.step e).service.registry.filters,
      f.Synced gone (l.step e).service.store (l.step e).cycles := by
  cases e with
  | cycleBegins now force => exact h.filters_cycleBegins hone'
  | downloadStarts place faults => exact h.filters_downloadStarts hone place faults
  | downloadEnds place ticket reply => exact h.filters_downloadEnds hone place ticket reply
  | persists place ticket faults now => exact h.filters_persists hone place ticket faults now
  | cycleEnds place => exact h.filters_cycleEnds hone place
  | removeProceeds place faults =>
    simp only [step]
    cases hrequest : l.removals[place]? with
    | none => exact h.filters
    | some request => exact h.filters_removeProceeds hrequest
  | fileVanishes id =>
    exact fun f hf => (h.filters f hf).of_store (fun content hholds => hholds.erase (hgone id rfl))
  | addProceeds place =>
    obtain ⟨hstore, hcycles, _⟩ := l.addProceeds_frame place
    rw [hstore, hcycles]
    exact h.filters_between (by simp)
  | addBegins | removeBegins | switches | loadsAll | deduplicates | assignsId | raisesIdFloor
  | setsUserRules => exact h.filters_between (by simp)

/-- At no moment of the run are two cycles under way. -/
def OneAtATime (l : LiveService) : List ServiceEvent → Prop
  | [] => l.cycles.length ≤ 1
  | e :: rest => l.cycles.length ≤ 1 ∧ (l.step e).OneAtATime rest

instance decidableOneAtATime : (l : LiveService) → (events : List ServiceEvent) →
    Decidable (l.OneAtATime events)
  | l, [] => inferInstanceAs (Decidable (l.cycles.length ≤ 1))
  | l, e :: rest =>
    have := decidableOneAtATime (l.step e) rest
    inferInstanceAs (Decidable (l.cycles.length ≤ 1 ∧ (l.step e).OneAtATime rest))

theorem OneAtATime.length_le {events : List ServiceEvent} (h : l.OneAtATime events) :
    l.cycles.length ≤ 1 := by
  cases events with
  | nil => exact h
  | cons e rest => exact h.1

end LiveService

end FilterLists
