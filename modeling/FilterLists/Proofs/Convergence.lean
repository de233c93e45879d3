import FilterLists.Proofs.Refresh.Healing
import FilterLists.Proofs.Refresh.Journal
import FilterLists.Proofs.Repetition

/-! A forced cycle brings every enabled filter that has an answer into agreement with its file and
with the answer, and writes back the files that were lost. -/
namespace FilterLists.LiveService
variable {l : LiveService} {network : Network} {script : CycleScript}

theorem distinct_lastState (hids : (l.service.registry.filters.map (·.id)).Nodup)
    (hreplies : l.Throughout (Cycle.IsAnswered network) script) : (l.lastState script).2.Distinct :=
  Cycle.Throughout.preserves (fun state => state.2.Distinct) hreplies
    (Cycle.distinct_of_waiting (Refresh.candidates_nodup l.policy script.now script.force hids))
    fun _ _ h _ => Cycle.distinct_move h

/-- Start idle and not paused, with distinct ids and with filters that are consistent, and let the
file of each enabled one hold its content or be lost. A forced cycle with nothing in between can be
brought to its end. When it has ended, with or without an error of the engine, each enabled filter
that the network has a body for agrees with its file and with the body, unless its save failed.
Other downloads and saves may fail, and anything but saves may fail for the filter itself. -/
theorem healed_of_forced (hidle : l.isIdle = true)
    (hids : (l.service.registry.filters.map (·.id)).Nodup)
    (hconsistent : ∀ f ∈ l.service.registry.filters, f.Consistent)
    (hmirrors : ∀ f ∈ l.service.registry.filters, f.enabled = true → l.service.store.Mirrors f)
    (hpaused : l.policy.paused = false) (hforce : script.force = true)
    (hreplies : l.Throughout (Cycle.IsAnswered network) script) :
    (∃ more, l.Throughout (Cycle.IsAnswered network) { script with moves := script.moves ++ more } ∧
      (l.runAlone { script with moves := script.moves ++ more }).isIdle = true) ∧
    let after := l.runAlone script
    after.isIdle = true →
      ∀ f ∈ l.service.registry.filters, f.enabled = true →
        ∀ body, (network f.url).body? = some body → l.Throughout (Cycle.IsSavedFor f.id) script →
          ∃ live ∈ after.service.registry.filters,
            Healed f l.service.store body live after.service.store := by
  have hdistinct := distinct_lastState hids hreplies
  refine ⟨?_, fun hends f hf henabled body hbody hsaves => ?_⟩
  · obtain ⟨more, hmore, -, hdone⟩ :=
      hdistinct.exists_end network l.policy.limit (l.lastState script).1
    refine ⟨more, Cycle.throughout_append.mpr ⟨hreplies, hmore⟩, ?_⟩
    rcases runAlone_cases (isIdle_iff.mp hidle) { script with moves := script.moves ++ more } with
      ⟨-, heq⟩ | ⟨hnot, -⟩
    · rw [heq]
      rfl
    · rw [lastState, List.foldl_append] at hnot
      exact absurd (hnot.symm.trans hdone) Bool.false_ne_true
  · obtain ⟨hdone, -⟩ := runAlone_of_isIdle (isIdle_iff.mp hidle) hends
    obtain ⟨hregistry, hstore⟩ := runAlone_frame (isIdle_iff.mp hidle) hends
    have htakesPart : Refresh.isDue l.policy script.now script.force f = true := by
      simp [Refresh.isDue, hpaused, henabled, hforce]
    have hbegin : Cycle.Heals f l.service.store body l.service.store
        (.begin l.service l.policy script.now script.force) :=
      Cycle.heals_of_waiting (Refresh.candidates_nodup l.policy script.now script.force hids)
        (Refresh.refreshCopy_mem_candidates hf htakesPart)
    have hheals : Cycle.Heals f l.service.store body (l.lastState script).1 (l.lastState script).2 :=
      hbegin.moves hbody hreplies hsaves
    refine ⟨Registry.landed (l.lastState script).2.results f, ?_, ?_⟩
    · rw [hregistry, Registry.merge, Registry.mergeFrom_eq 0 hids hdistinct.results]
      exact List.mem_map_of_mem hf
    · rw [hstore]
      exact hheals.healed hdone henabled (hconsistent f hf) (hmirrors f hf henabled)

/-- Two filters with content. The file of the first is lost. -/
def oneLost : LiveService :=
  { service :=
      { registry :=
          { filters :=
              [({ id := 1, url := "http://a", enabled := true } : Filter).setContent (bytesOf "a"),
                ({ id := 2, url := "http://b", enabled := true } : Filter).setContent (bytesOf "b")] }
        store :=
          { path := "cache"
            place := some (.directory [(Store.fileName 2, .file (bytesOf "b") ⟨0⟩)] ⟨0⟩) } } }

def asBefore : Network := fun url => if url = "http://a" then .plainText "a" else .plainText "b"

/-- The first is written back, and the device refuses to touch the file of the second. -/
def firstWrittenBack : CycleScript :=
  ⟨⟨0⟩, true, [.downloadStarts Faults.none, .downloadStarts Faults.none,
    .downloadEnds 1 (.plainText "b"), .downloadEnds 0 (.plainText "a"),
    .persists 0 Faults.none ⟨5⟩, .persists 1 onlyExamined ⟨6⟩]⟩

theorem consistent_oneLost : ∀ f ∈ oneLost.service.registry.filters, f.Consistent := by
  intro f hf
  simp only [oneLost, List.mem_cons, List.not_mem_nil, or_false] at hf
  rcases hf with rfl | rfl <;> exact (Filter.isFilled_setContent _ _).consistent rfl

theorem cached_oneLost : oneLost.service.store.cached 1 = .error .notFound :=
  rfl

theorem answers_firstWrittenBack :
    oneLost.Throughout (Cycle.IsAnswered asBefore) firstWrittenBack := by
  refine ⟨trivial, trivial, ?_, ?_, trivial, trivial, trivial⟩
  · exact reply_of_url "http://b" rfl (by decide +kernel)
  · exact reply_of_url "http://a" rfl (by decide +kernel)

theorem saves_firstWrittenBack : oneLost.Throughout (Cycle.IsSavedFor 1) firstWrittenBack := by
  refine ⟨trivial, trivial, trivial, trivial, fun g _ hid => ?_, fun g hg hid => ?_, trivial⟩
  · have haccepts : oneLost.service.store.accepts Faults.none g = true := by
      simp [Store.accepts, Store.allowsWriting, Faults.none, Store.isReplaceable, hid,
        cached_oneLost]
    exact Store.exists_saved_of_accepts haccepts ⟨5⟩
  · have hother : ∀ task ∈ (oneLost.lastState
        { firstWrittenBack with moves := firstWrittenBack.moves.take 5 }).2.active,
        task.filter.id = 2 := by decide +kernel
    have htwo : g.id = 2 := hother _ hg
    rw [hid] at htwo
    cases htwo

theorem healed_of_firstWrittenBack :
    oneLost.isIdle = true ∧ (oneLost.service.registry.filters.map (·.id)).Nodup ∧
      (oneLost.runAlone firstWrittenBack).ended = [.ok 1] ∧
      ∃ live ∈ (oneLost.runAlone firstWrittenBack).service.registry.filters,
        live.id = 1 ∧ live.content = some (bytesOf "a") ∧
        (oneLost.runAlone firstWrittenBack).service.store.contents 1 = .ok (bytesOf "a") := by
  have hids : (oneLost.service.registry.filters.map (·.id)).Nodup := by decide
  have hheld : oneLost.service.store.cached 2 = .ok (.file (bytesOf "b") ⟨0⟩) := rfl
  have hmirrors : ∀ f ∈ oneLost.service.registry.filters, f.enabled = true →
      oneLost.service.store.Mirrors f := by
    intro f hf _ node hnode
    simp only [oneLost, List.mem_cons, List.not_mem_nil, or_false] at hf
    rcases hf with rfl | rfl
    · cases cached_oneLost.symm.trans hnode
    · cases hheld.symm.trans hnode
      exact ⟨_, _, rfl, rfl⟩
  have hended : (oneLost.runAlone firstWrittenBack).ended = [.ok 1] := by decide +kernel
  have hforce : firstWrittenBack.force = true := rfl
  have hlast : (oneLost.runAlone firstWrittenBack).isIdle = true := by decide +kernel
  obtain ⟨live, hlive, hhealed⟩ := (healed_of_forced (l := oneLost) rfl hids consistent_oneLost
    hmirrors rfl hforce answers_firstWrittenBack).2 hlast _ List.mem_cons_self rfl (bytesOf "a")
    (by decide +kernel) saves_firstWrittenBack
  obtain ⟨content, hcontent, hfile, -⟩ := hhealed.agrees
  have hid : live.id = 1 := hhealed.subscription.1
  have hbody : live.content = some (bytesOf "a") := by
    refine hhealed.isBody ?_
    rintro ⟨held, -, hread, -⟩
    have hlost : oneLost.service.store.contents 1 = .error .notFound := rfl
    cases hlost.symm.trans hread
  rw [hid] at hfile
  rw [hbody] at hcontent
  cases hcontent
  exact ⟨rfl, hids, hended, live, hlive, hid, hbody, hfile⟩

end FilterLists.LiveService
