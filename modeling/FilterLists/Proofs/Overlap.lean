import FilterLists.Proofs.Consistency
import FilterLists.Proofs.Refresh.Faithful
import FilterLists.Proofs.Registry.Merge

/-! What overlapping cycles leave behind. A file has the content that was saved last, and a filter
has the content of the cycle that ended last among those that have saved it. The two agree where the
same cycle was the last one in both. -/
namespace FilterLists

namespace Registry

theorem content_landed_of_mem {results : List Refreshed}
    (hdistinct : (results.map (·.filter.id)).Nodup) {f g : Filter}
    (hmem : { filter := g, changed := true } ∈ results) (hid : f.id = g.id) (hurl : f.url = g.url)
    (henabled : f.enabled = true) : (landed results f).content = g.content := by
  have hlanding := landing?_eq_some hdistinct hmem (sameSubscription_iff.mpr ⟨hid, hurl⟩)
  simp [landed, hlanding, takeOver, henabled]

theorem content_landed_of_forall {results : List Refreshed} {f : Filter}
    (h : ∀ g, { filter := g, changed := true } ∈ results → g.id ≠ f.id) :
    (landed results f).content = f.content := by
  unfold landed
  cases hlanding : landing? results f with
  | none => rfl
  | some fresh =>
    obtain ⟨hmem, hsame⟩ := of_landing?_eq_some hlanding
    have hid := (sameSubscription_iff.mp hsame).1
    have hunchanged : fresh.changed = false := by
      by_contra hchanged
      rw [Bool.not_eq_false] at hchanged
      exact h fresh.filter (by rw [← hchanged]; exact hmem) hid.symm
    simp [takeOver, hunchanged]

end Registry

namespace Journal
variable {j : Journal} {e : ServiceEvent}

/-- Of all cycles that have saved the filter, this one was the last to do so. -/
def IsLastSave (j : Journal) (n : Nat) (g : Filter) : Prop :=
  .saved n g ∈ j.entries ∧ ∀ m g', .saved m g' ∈ j.entries → g'.id = g.id → m ≠ n →
    [.saved m g', .saved n g].Sublist j.entries

/-- Of all cycles that have saved the filter and have ended, this one was the last to end. -/
def IsLastEnd (j : Journal) (n : Nat) (g : Filter) : Prop :=
  .saved n g ∈ j.entries ∧ .completed n ∈ j.entries ∧
    ∀ m g', .saved m g' ∈ j.entries → g'.id = g.id → m ≠ n → .completed m ∈ j.entries →
      [.completed m, .completed n].Sublist j.entries

/-- Files have what was saved last, and filters what the cycles that have ended last brought. -/
structure Current (j : Journal) : Prop where
  listed : ∀ n g, .saved n g ∈ j.entries → j.live.Lists g.id g.url
  files : ∀ n g, j.IsLastSave n g → j.live.service.store.content? g.id = some (g.content.getD [])
  contents : ∀ n g, j.IsLastEnd n g →
    ∀ f ∈ j.live.service.registry.filters, f.id = g.id → f.content = g.content

namespace Current

theorem files_withMoved (h : j.Current) (hfaithful : j.Faithful) (hcopied : j.live.Copied)
    {place n : Nat} {c : Cycle} (hn : j.numbers[place]? = some n)
    (hc : j.live.cycles[place]? = some c) (move : CycleMove) (m : Nat) (g : Filter)
    (hlast : (j.withMoved place n c move).IsLastSave m g) :
    (j.withMoved place n c move).live.service.store.content? g.id = some (g.content.getD []) := by
  obtain ⟨hg, horder⟩ := hlast
  -- Where the save is not of this move, it was the last one before the move too.
  have hbefore : .saved m g ∉ c.entriesOf n j.live.policy.limit j.live.service.store move →
      j.live.service.store.content? g.id = some (g.content.getD []) := by
    intro hnew
    refine h.files m g ⟨(List.mem_append.mp hg).resolve_right hnew, fun k g' hg' hid hne => ?_⟩
    exact pair_sublist_of_append (horder k g' (List.mem_append_left _ hg') hid hne) hnew
  rcases c.move_cases j.live.policy.limit n j.live.service.store move with
    ⟨ticket, f, g', t, hf, hg', hentries, _, hfile, hframe⟩ | ⟨hnone, _, hkept⟩
  · by_cases hid : g.id = f.id
    · have hsame : .saved m g = JournalEntry.saved n g' := by
        by_contra hother
        have hnew : .saved m g ∉ c.entriesOf n j.live.policy.limit j.live.service.store move := by
          rw [hentries]
          exact fun hmem => hother (List.mem_singleton.mp hmem)
        have hold : .saved m g ∈ j.entries := (List.mem_append.mp hg).resolve_right hnew
        have hne : n ≠ m := by
          rintro rfl
          exact hfaithful.id_ne_of_active hcopied hn hc hf hold hid
        have hfirst : .saved n g' ∈ (j.withMoved place n c move).entries :=
          List.mem_append_right _ (by rw [hentries]; exact List.mem_singleton_self _)
        have hpair := pair_sublist_of_append
          (horder n g' hfirst (by rw [hg', hid]) hne) hnew
        have hagain : .saved n g' ∈ j.entries := hpair.subset List.mem_cons_self
        exact hfaithful.id_ne_of_active hcopied hn hc hf hagain (by rw [hg'])
      cases hsame
      rw [hid, hg']
      exact hfile
    · have hnew : .saved m g ∉ c.entriesOf n j.live.policy.limit j.live.service.store move := by
        rw [hentries]
        intro hmem
        cases List.mem_singleton.mp hmem
        exact hid (by rw [hg'])
      exact (Store.content?_congr (hframe g.id hid)).trans (hbefore hnew)
  · exact (hkept g.id).trans (hbefore (hnone m g))

theorem withMoved (h : j.Current) (hfaithful : j.Faithful) (hcopied : j.live.Copied)
    {place n : Nat} {c : Cycle} (hn : j.numbers[place]? = some n)
    (hc : j.live.cycles[place]? = some c) (move : CycleMove) :
    (j.withMoved place n c move).Current := by
  refine ⟨fun m g hg => ?_, h.files_withMoved hfaithful hcopied hn hc move,
    fun m g hlast => h.contents m g ?_⟩
  · rcases List.mem_append.mp hg with hold | hnew
    · exact h.listed m g hold
    · obtain ⟨_, ticket, f, t, hf, rfl⟩ := Cycle.saved_of_mem_entriesOf hnew
      exact hcopied.copies c (List.mem_of_getElem? hc) f (Cycle.mem_copies_of_active hf)
  obtain ⟨hg, hdone, horder⟩ := hlast
  have hdone' : .completed m ∈ j.entries :=
    (List.mem_append.mp hdone).resolve_right (Cycle.completed_notMem_entriesOf m)
  have hold : .saved m g ∈ j.entries := by
    refine (List.mem_append.mp hg).resolve_right (fun hnew => ?_)
    rw [(Cycle.saved_of_mem_entriesOf hnew).1] at hdone'
    exact (hfaithful.completed n hdone').1 (List.mem_of_getElem? hn)
  refine ⟨hold, hdone', fun k g' hg' hid hne hk => ?_⟩
  exact pair_sublist_of_append
    (horder k g' (List.mem_append_left _ hg') hid hne (List.mem_append_left _ hk))
    (Cycle.completed_notMem_entriesOf m)

theorem withEnded (h : j.Current) (hfaithful : j.Faithful) (hcopied : j.live.Copied)
    {place n : Nat} {c : Cycle} (hn : j.numbers[place]? = some n)
    (hc : j.live.cycles[place]? = some c) : (j.withEnded place n c).Current := by
  have hmem := List.mem_of_getElem? hc
  have hresults := hfaithful.results n c (mem_zip_iff.mpr ⟨place, hn, hc⟩)
  have hdistinct := (hcopied.cycles c hmem).results
  have hsaved : ∀ {m g}, .saved m g ∈ (j.withEnded place n c).entries → .saved m g ∈ j.entries := by
    simp [Journal.withEnded]
  constructor
  case listed =>
    intro m g hg
    exact (h.listed m g (hsaved hg)).congr (LiveService.map_frame_conclude j.live.service c)
  case files =>
    intro m g hlast
    obtain ⟨hg, horder⟩ := hlast
    have hfile := h.files m g ⟨hsaved hg, fun k g' hg' hid hne =>
      pair_sublist_of_append (horder k g' (List.mem_append_left _ hg') hid hne) (by simp)⟩
    rw [Journal.withEnded, Cycle.store_conclude]
    exact hfile
  case contents =>
    intro m g hlast f hf hid
    obtain ⟨hg, hdone, horder⟩ := hlast
    have hfilters : (j.withEnded place n c).live.service.registry.filters =
        j.live.service.registry.filters.map (Registry.landed c.results) := by
      rw [Journal.withEnded, Cycle.registry_conclude, Registry.merge,
        Registry.mergeFrom_eq 0 hcopied.ids hdistinct]
    rw [hfilters] at hf
    obtain ⟨live, hlive, rfl⟩ := List.mem_map.mp hf
    have hid' : live.id = g.id := by rw [← hid, Registry.landed_id]
    -- the cycle that ends is the one in question, or it ends later and so has not saved the filter
    by_cases hsame : m = n
    · subst hsame
      have hresult := (hresults g).mp (hsaved hg)
      obtain ⟨f, hf, henabled, hfid, hfurl⟩ :=
        hcopied.copies c hmem g (Cycle.mem_copies_of_results hresult)
      obtain rfl : f = live := List.inj_on_of_nodup_map hcopied.ids hf hlive (hfid.trans hid'.symm)
      exact Registry.content_landed_of_mem hdistinct hresult hfid hfurl henabled
    · have hdone' : .completed m ∈ j.entries := by simpa [Journal.withEnded, hsame] using hdone
      have hearlier : ∀ {k}, [.completed k, .completed m].Sublist (j.withEnded place n c).entries →
          [JournalEntry.completed k, .completed m].Sublist j.entries :=
        fun hpair => pair_sublist_of_append hpair (by simpa using hsame)
      have hother : ∀ g', { filter := g', changed := true } ∈ c.results → g'.id ≠ live.id := by
        intro g' hg' hsaves
        have hpair := hearlier (horder n g' (List.mem_append_left _ ((hresults g').mpr hg'))
          (hsaves.trans hid') (Ne.symm hsame) (List.mem_append_right _ (List.mem_singleton_self _)))
        exact (hfaithful.completed n (hpair.subset List.mem_cons_self)).1 (List.mem_of_getElem? hn)
      rw [Registry.content_landed_of_forall hother]
      refine h.contents m g ⟨hsaved hg, hdone', fun k g' hg' hkid hne hk => ?_⟩ live hlive hid'
      exact hearlier (horder k g' (List.mem_append_left _ hg') hkid hne (List.mem_append_left _ hk))

end Current

theorem step_current (h : j.Current) (hfaithful : j.Faithful) (hcopied : j.live.Copied)
    (he : e.isOfCycle = true) : (j.step e).Current := by
  rcases step_cases hfaithful.aligned he with ⟨now, force, -, heq⟩ |
    ⟨place, n, c, move, hn, hc, heq⟩ | ⟨place, n, c, hn, hc, heq⟩ | heq <;> rw [heq]
  · exact ⟨h.listed, h.files, h.contents⟩
  · exact h.withMoved hfaithful hcopied hn hc move
  · exact h.withEnded hfaithful hcopied hn hc
  · exact h

theorem run_current (h : j.Current) (hfaithful : j.Faithful) (hcopied : j.live.Copied)
    {events : List ServiceEvent} (honly : ∀ e ∈ events, e.isOfCycle = true) :
    (j.run events).Current ∧ (j.run events).Faithful ∧ (j.run events).live.Copied := by
  induction events generalizing j with
  | nil => exact ⟨h, hfaithful, hcopied⟩
  | cons e rest ih =>
    obtain ⟨he, hrest⟩ := List.forall_mem_cons.mp honly
    exact ih (step_current h hfaithful hcopied he) (step_faithful hfaithful hcopied he)
      (step_copied hfaithful.aligned hcopied he) hrest

/-- Take any number of cycles that overlap in any way, and one that has saved a filter. If each of
the others that have saved it did so before and has ended before, then in the end the filter and its
file have the body that this cycle has downloaded. -/
theorem holds_last_of_overlapping (service : Service) (policy : RefreshPolicy)
    (hids : (service.registry.filters.map (·.id)).Nodup) (events : List ServiceEvent)
    (honly : ∀ e ∈ events, e.isOfCycle = true) :
    let start : LiveService := { service, policy }
    let last := start.run events
    let entries := (Journal.run { live := start } events).entries
    last.isIdle = true →
    ∀ second copy, .saved second copy ∈ entries →
      (∀ first earlier, .saved first earlier ∈ entries → earlier.id = copy.id → first ≠ second →
        [.saved first earlier, .saved second copy].Sublist entries ∧
          [.completed first, .completed second].Sublist entries) →
      ∃ body, .fetchEnded second copy.id (some body) ∈ entries ∧
        (∃ f ∈ last.service.registry.filters,
          f.enabled = true ∧ f.id = copy.id ∧ f.url = copy.url ∧ f.content = some body) ∧
        last.service.store.content? copy.id = some body := by
  intro start last entries hidle second copy hsaved horder
  have hcopied : start.Copied := ⟨hids, by simp [start], by simp [start]⟩
  have hfaithful : Faithful { live := start } := by
    refine ⟨rfl, List.nodup_nil, ?_, ?_, ?_, ?_, ?_, ?_, ?_⟩ <;> simp [underWay]
  have hcurrent : Current { live := start } := by
    refine ⟨?_, ?_, ?_⟩ <;> simp [IsLastSave, IsLastEnd]
  have hlive : (Journal.run { live := start } events).live = last := run_live _ events
  obtain ⟨hend, hjournal, _⟩ := run_current hcurrent hfaithful hcopied honly
  have hnumbers : (Journal.run { live := start } events).numbers = [] := by
    have hlength := hjournal.aligned
    rw [hlive, LiveService.isIdle_iff.mp hidle] at hlength
    exact List.eq_nil_of_length_eq_zero hlength
  have hdone : .completed second ∈ entries := by
    refine (hjournal.saved second copy hsaved).resolve_left (fun hmem => ?_)
    rw [hnumbers] at hmem
    exact absurd hmem List.not_mem_nil
  obtain ⟨body, hbody, hfetched⟩ := hjournal.bodies second copy hsaved
  obtain ⟨f, hf, henabled, hid, hurl⟩ := hend.listed second copy hsaved
  have hcontent := hend.contents second copy ⟨hsaved, hdone, fun first earlier hfirst hsame hne _ =>
    (horder first earlier hfirst hsame hne).2⟩ f hf hid
  have hfile := hend.files second copy ⟨hsaved, fun first earlier hfirst hsame hne =>
    (horder first earlier hfirst hsame hne).1⟩
  rw [hlive] at hf hfile
  rw [hbody] at hcontent hfile
  exact ⟨body, hfetched, ⟨f, hf, henabled, hid, hurl, hcontent⟩, hfile⟩

/-- Two cycles overlap. The second one downloads and saves the first filter after the first one. -/
def secondAhead : List ServiceEvent :=
  [.cycleBegins ⟨0⟩ true, .downloadStarts 0 Faults.none, .downloadStarts 0 Faults.none,
    .downloadEnds 0 0 (.plainText "old"), .persists 0 0 Faults.none ⟨0⟩,
    .cycleBegins ⟨1⟩ true, .downloadStarts 1 Faults.none, .downloadStarts 1 Faults.none,
    .downloadEnds 1 0 (.plainText "new"), .persists 1 0 Faults.none ⟨1⟩]

/-- The download of the first cycle has ended before that of the second one starts, but it is saved
after it. -/
def firstSavedLast : List ServiceEvent :=
  [.cycleBegins ⟨0⟩ true, .downloadStarts 0 Faults.none, .downloadStarts 0 Faults.none,
    .downloadEnds 0 0 (.plainText "old"), .cycleBegins ⟨1⟩ true, .downloadStarts 1 Faults.none,
    .downloadStarts 1 Faults.none, .downloadEnds 1 0 (.plainText "new"),
    .persists 1 0 Faults.none ⟨1⟩, .persists 0 0 Faults.none ⟨0⟩]

/-- The download of the other filter ends in both cycles, first in the one in this place. -/
def othersEnd (place : Nat) : List ServiceEvent :=
  [.downloadEnds place 1 (.plainText "y"), .persists place 1 Faults.none ⟨2⟩, .cycleEnds place,
    .downloadEnds 0 1 (.plainText "y"), .persists 0 1 Faults.none ⟨3⟩, .cycleEnds 0]

def bothBare : Service :=
  { registry := { filters := LiveService.twoConfigured }, store := { path := "cache" } }

def downloaded (body : String) (t : Instant) : Filter :=
  { ({ id := 1, url := "http://a", enabled := true } : Filter).setContent (bytesOf body) with
    lastUpdated := some t }

/-- The second cycle also ends after the first one. -/
theorem holds_second_of_ends_last :
    let start : LiveService := { service := bothBare }
    let events := secondAhead ++ othersEnd 0
    let entries := (Journal.run { live := start } events).entries
    (bothBare.registry.filters.map (·.id)).Nodup ∧ (∀ e ∈ events, e.isOfCycle = true) ∧
      (start.run events).isIdle = true ∧ .saved 0 (downloaded "old" ⟨0⟩) ∈ entries ∧
      .saved 1 (downloaded "new" ⟨1⟩) ∈ entries ∧
      ∃ body, .fetchEnded 1 1 (some body) ∈ entries ∧
        (∃ f ∈ (start.run events).service.registry.filters, f.enabled = true ∧ f.id = 1 ∧
          f.url = "http://a" ∧ f.content = some body) ∧
        (start.run events).service.store.content? 1 = some body := by
  have hids : (bothBare.registry.filters.map (·.id)).Nodup := by decide
  have honly : ∀ e ∈ secondAhead ++ othersEnd 0, e.isOfCycle = true := by
    simp [secondAhead, othersEnd, ServiceEvent.isOfCycle, ServiceEvent.move?]
  have horder : (Journal.run { live := { service := bothBare } }
      (secondAhead ++ othersEnd 0)).entries.all (fun entry =>
        match entry with
        | .saved first earlier => decide (earlier.id = 1 → first ≠ 1 →
            [.saved first earlier, .saved 1 (downloaded "new" ⟨1⟩)].Sublist
                (Journal.run { live := { service := bothBare } }
                  (secondAhead ++ othersEnd 0)).entries ∧
              [.completed first, .completed 1].Sublist
                (Journal.run { live := { service := bothBare } }
                  (secondAhead ++ othersEnd 0)).entries)
        | _ => true) = true := by decide +kernel
  refine ⟨hids, honly, by decide +kernel, by decide +kernel, by decide +kernel, ?_⟩
  refine holds_last_of_overlapping bothBare {} hids (secondAhead ++ othersEnd 0) honly
    (by decide +kernel) 1 (downloaded "new" ⟨1⟩) (by decide +kernel) ?_
  intro first earlier hfirst hid hne
  exact of_decide_eq_true (List.all_eq_true.mp horder _ hfirst) hid hne

def bothInTurn (first other : String) : List ServiceEvent :=
  [.cycleBegins ⟨0⟩ true, .downloadStarts 0 Faults.none, .downloadStarts 0 Faults.none,
    .downloadEnds 0 0 (.plainText first), .persists 0 0 Faults.none ⟨0⟩,
    .downloadEnds 0 1 (.plainText other), .persists 0 1 Faults.none ⟨0⟩, .cycleEnds 0]

def sharedId : Service :=
  { registry := { filters := [{ id := 1, url := "http://a", enabled := true },
      { id := 1, url := "http://b", enabled := true }] }
    store := { path := "cache" } }

/-- If the second cycle ends first, then the filter gets the old body back, which is not the one in
its file. If it saves first, then the file gets the old body. Even of cycles in turn the second one
does not leave its body in a file that is another filter's too. -/
theorem not_holds_second_of_ends_first :
    (let start : LiveService := { service := bothBare }
      let events := secondAhead ++ othersEnd 1
      let last := start.run events
      let entries := (Journal.run { live := start } events).entries
      last.isIdle = true ∧ .saved 0 (downloaded "old" ⟨0⟩) ∈ entries ∧
        .saved 1 (downloaded "new" ⟨1⟩) ∈ entries ∧
        [.fetchEnded 0 1 (some (bytesOf "old")), .fetchStarted 1 1].Sublist entries ∧
        last.service.registry.filters.map Filter.content =
          [some (bytesOf "old"), some (bytesOf "y")] ∧
        last.service.store.content? 1 = some (bytesOf "new")) ∧
    (let start : LiveService := { service := bothBare }
      let events := firstSavedLast ++ othersEnd 0
      let last := start.run events
      let entries := (Journal.run { live := start } events).entries
      last.isIdle = true ∧ .saved 0 (downloaded "old" ⟨0⟩) ∈ entries ∧
        .saved 1 (downloaded "new" ⟨1⟩) ∈ entries ∧
        [.fetchEnded 0 1 (some (bytesOf "old")), .fetchStarted 1 1].Sublist entries ∧
        last.service.registry.filters.map Filter.content =
          [some (bytesOf "new"), some (bytesOf "y")] ∧
        last.service.store.content? 1 = some (bytesOf "old")) ∧
      let start : LiveService := { service := sharedId }
      let events := bothInTurn "old" "y" ++ bothInTurn "new" "z"
      let last := start.run events
      let entries := (Journal.run { live := start } events).entries
      last.isIdle = true ∧ .saved 0 (downloaded "old" ⟨0⟩) ∈ entries ∧
        .saved 1 (downloaded "new" ⟨0⟩) ∈ entries ∧
        [.fetchEnded 0 1 (some (bytesOf "old")), .fetchStarted 1 1].Sublist entries ∧
        last.service.registry.filters.map Filter.content =
          [some (bytesOf "new"), some (bytesOf "z")] ∧
        last.service.store.content? 1 = some (bytesOf "z") := by
  refine ⟨⟨?_, ?_, ?_, ?_, ?_, ?_⟩, ⟨?_, ?_, ?_, ?_, ?_, ?_⟩, ?_, ?_, ?_, ?_, ?_, ?_⟩ <;>
    decide +kernel

end Journal

end FilterLists
