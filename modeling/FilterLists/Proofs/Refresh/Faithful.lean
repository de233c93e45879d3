import FilterLists.Proofs.Identity
import FilterLists.Proofs.Refresh.Journal

/-! The journal agrees with the cycles: what a cycle under way has saved is among its results, and
every content that was saved is one that the cycle has downloaded. -/
namespace FilterLists

section Zip
variable {α β : Type} {as : List α} {bs : List β} {place : Nat} {a n : α} {b c : β}

theorem mem_zip_iff : (a, b) ∈ as.zip bs ↔ ∃ i : Nat, as[i]? = some a ∧ bs[i]? = some b := by
  simp only [List.mem_iff_getElem?, List.getElem?_zip_eq_some]

theorem ne_of_getElem?_ne (h : as.Nodup) (hn : as[place]? = some n) {i : Nat}
    (ha : as[i]? = some a) (hi : i ≠ place) : a ≠ n := by
  rintro rfl
  obtain ⟨hlt, _⟩ := List.getElem?_eq_some_iff.mp ha
  exact hi ((List.getElem?_inj hlt h).mp (ha.trans hn.symm))

theorem mem_zip_set (h : as.Nodup) (hn : as[place]? = some n)
    (hmem : (a, b) ∈ as.zip (bs.set place c)) :
    (a = n ∧ b = c) ∨ ((a, b) ∈ as.zip bs ∧ a ≠ n) := by
  obtain ⟨i, ha, hb⟩ := mem_zip_iff.mp hmem
  by_cases hi : i = place
  · subst hi
    left
    refine ⟨Option.some.inj (ha.symm.trans hn), ?_⟩
    obtain ⟨hlt, hget⟩ := List.getElem?_eq_some_iff.mp hb
    simpa using hget.symm
  · right
    rw [List.getElem?_set_ne (Ne.symm hi)] at hb
    exact ⟨mem_zip_iff.mpr ⟨i, ha, hb⟩, ne_of_getElem?_ne h hn ha hi⟩

theorem mem_zip_eraseIdx (h : as.Nodup) (hn : as[place]? = some n)
    (hmem : (a, b) ∈ (as.eraseIdx place).zip (bs.eraseIdx place)) :
    (a, b) ∈ as.zip bs ∧ a ≠ n := by
  obtain ⟨i, ha, hb⟩ := mem_zip_iff.mp hmem
  rw [List.getElem?_eraseIdx] at ha hb
  split_ifs at ha with hlt
  · rw [if_pos hlt] at hb
    exact ⟨mem_zip_iff.mpr ⟨i, ha, hb⟩, ne_of_getElem?_ne h hn ha (by omega)⟩
  · rw [if_neg hlt] at hb
    exact ⟨mem_zip_iff.mpr ⟨i + 1, ha, hb⟩, ne_of_getElem?_ne h hn ha (by omega)⟩

/-- What is not entered last was entered in this order before. -/
theorem pair_sublist_of_append {first second : α} {new : List α}
    (h : [first, second].Sublist (as ++ new)) (hnew : second ∉ new) :
    [first, second].Sublist as := by
  obtain ⟨older, newer, heq, holder, hnewer⟩ := List.sublist_append_iff.mp h
  rcases List.eq_nil_or_concat newer with rfl | ⟨init, last, rfl⟩
  · rw [heq, List.append_nil]
    exact holder
  · have hlast : last = second := by
      have hends := congrArg List.getLast? heq
      simpa using hends.symm
    exact absurd (hnewer.subset (by simp [hlast])) hnew

end Zip

namespace LiveService
variable {l : LiveService} {id : FilterId} {url : String}

def Lists (l : LiveService) (id : FilterId) (url : String) : Prop :=
  ∃ f ∈ l.service.registry.filters, f.enabled = true ∧ f.id = id ∧ f.url = url

/-- Ids are distinct, and every working copy is of an enabled filter, of which it is the only copy
in its cycle. -/
structure Copied (l : LiveService) : Prop where
  ids : (l.service.registry.filters.map (·.id)).Nodup
  cycles : ∀ c ∈ l.cycles, c.Distinct
  copies : ∀ c ∈ l.cycles, ∀ g ∈ c.copies, l.Lists g.id g.url

/-- What the merge of a cycle leaves of a filter. -/
def frame (f : Filter) : FilterId × String × Bool :=
  (f.id, f.url, f.enabled)

theorem Lists.congr {m : LiveService} (h : l.Lists id url)
    (hframe : m.service.registry.filters.map frame = l.service.registry.filters.map frame) :
    m.Lists id url := by
  obtain ⟨f, hf, henabled, hid, hurl⟩ := h
  have hmem : frame f ∈ m.service.registry.filters.map frame := hframe ▸ List.mem_map_of_mem hf
  obtain ⟨g, hg, heq⟩ := List.mem_map.mp hmem
  simp only [frame, Prod.mk.injEq] at heq
  exact ⟨g, hg, heq.2.2.trans henabled, heq.1.trans hid, heq.2.1.trans hurl⟩

theorem ids_of_frame {m : LiveService}
    (h : m.service.registry.filters.map frame = l.service.registry.filters.map frame) :
    m.service.registry.filters.map (·.id) = l.service.registry.filters.map (·.id) := by
  simpa [frame, Function.comp_def] using congrArg (List.map Prod.fst) h

theorem map_frame_conclude (s : Service) (c : Cycle) :
    (c.conclude s).1.registry.filters.map frame = s.registry.filters.map frame := by
  rw [Cycle.registry_conclude, Registry.merge]
  refine Registry.map_mergeFrom (fun fresh live => ?_) _ _ _
  obtain ⟨hid, hurl, henabled⟩ := Registry.takeOver_subscription fresh live
  simp only [frame, hid, hurl, henabled]

end LiveService

namespace Journal
variable {j : Journal} {e : ServiceEvent}

theorem step_copied (haligned : j.numbers.length = j.live.cycles.length) (h : j.live.Copied)
    (he : e.isOfCycle = true) : (j.step e).live.Copied := by
  rcases step_cases haligned he with ⟨now, force, -, heq⟩ | ⟨place, n, c, move, _, hc, heq⟩ |
    ⟨place, n, c, _, hc, heq⟩ | heq <;> rw [heq]
  · refine ⟨h.ids, fun d hd => ?_, fun d hd => ?_⟩
    · rcases List.mem_append.mp hd with hold | hnew
      · exact h.cycles d hold
      · rw [List.mem_singleton.mp hnew]
        exact Cycle.distinct_of_waiting (Refresh.candidates_nodup _ now force h.ids)
    · rcases List.mem_append.mp hd with hold | hnew
      · exact h.copies d hold
      · rw [List.mem_singleton.mp hnew]
        exact fun g hg => LiveService.mem_copies_begin hg
  · have hmem := List.mem_of_getElem? hc
    refine ⟨h.ids, fun d hd => ?_, fun d hd => ?_⟩
    · rcases List.mem_or_eq_of_mem_set hd with hold | rfl
      · exact h.cycles d hold
      · exact Cycle.distinct_move (h.cycles c hmem)
    · rcases List.mem_or_eq_of_mem_set hd with hold | rfl
      · exact h.copies d hold
      · exact Cycle.forall_copies_move (P := j.live.Lists) (h.copies c hmem)
  · have hframe := LiveService.map_frame_conclude j.live.service c
    refine ⟨?_, fun d hd => h.cycles d (List.mem_of_mem_eraseIdx hd), fun d hd g hg => ?_⟩
    · rw [LiveService.ids_of_frame hframe]
      exact h.ids
    · exact (h.copies d (List.mem_of_mem_eraseIdx hd) g hg).congr hframe
  · exact h

/-- The entries are those of the cycles that have begun. What a cycle under way has saved so far is
among its results. -/
structure Faithful (j : Journal) : Prop where
  aligned : j.numbers.length = j.live.cycles.length
  numbers : j.numbers.Nodup
  below : ∀ n ∈ j.numbers, n < j.begun
  completed : ∀ n, .completed n ∈ j.entries → n ∉ j.numbers ∧ n < j.begun
  saved : ∀ n g, .saved n g ∈ j.entries → n ∈ j.numbers ∨ .completed n ∈ j.entries
  results : ∀ n c, (n, c) ∈ j.underWay →
    ∀ g, .saved n g ∈ j.entries ↔ { filter := g, changed := true } ∈ c.results
  fetched : ∀ n c, (n, c) ∈ j.underWay → ∀ ticket f, .fetched ticket f true ∈ c.active →
    ∃ body, f.content = some body ∧ .fetchEnded n f.id (some body) ∈ j.entries
  bodies : ∀ n g, .saved n g ∈ j.entries →
    ∃ body, g.content = some body ∧ .fetchEnded n g.id (some body) ∈ j.entries
  once : ∀ n g g', .saved n g ∈ j.entries → .saved n g' ∈ j.entries → g.id = g'.id → g = g'

namespace Faithful

/-- What is about to be saved has not been saved by the cycle. -/
theorem id_ne_of_active (h : j.Faithful) (hcopied : j.live.Copied) {place n ticket : Nat} {c : Cycle}
    (hn : j.numbers[place]? = some n) (hc : j.live.cycles[place]? = some c) {f g : Filter}
    (hf : .fetched ticket f true ∈ c.active) (hg : .saved n g ∈ j.entries) : g.id ≠ f.id := by
  have hresult := (h.results n c (mem_zip_iff.mpr ⟨place, hn, hc⟩) g).mp hg
  have hdistinct := hcopied.cycles c (List.mem_of_getElem? hc)
  intro hid
  exact hdistinct.notMem_results_of_active hf (List.mem_map.mpr ⟨_, hresult, hid⟩)

theorem withBegun (h : j.Faithful) (now : Instant) (force : Bool) :
    (j.withBegun now force).Faithful := by
  have hnew : j.begun ∉ j.numbers := fun hmem => Nat.lt_irrefl _ (h.below _ hmem)
  have hunder : ∀ {n c}, (n, c) ∈ (j.withBegun now force).underWay → (n, c) ∈ j.underWay ∨
      (n = j.begun ∧ c = .begin j.live.service j.live.policy now force) := by
    intro n c hmem
    simp only [underWay, Journal.withBegun] at hmem
    rw [List.zip_append h.aligned] at hmem
    rcases List.mem_append.mp hmem with hold | hlast
    · exact .inl hold
    · simpa [List.zip, List.zipWith] using Or.inr hlast
  refine {
    aligned := by simp [Journal.withBegun, h.aligned], numbers := ?numbers, below := ?below
    completed := ?completed, saved := ?saved, results := ?results, fetched := ?fetched
    bodies := h.bodies, once := h.once }
  case numbers =>
    refine List.nodup_append.mpr ⟨h.numbers, List.nodup_singleton _, fun n hn m hm heq => hnew ?_⟩
    rw [← List.mem_singleton.mp hm, ← heq]
    exact hn
  case below =>
    intro n hn
    rcases List.mem_append.mp hn with hold | hlast
    · exact Nat.lt_succ_of_lt (h.below n hold)
    · rw [List.mem_singleton.mp hlast]
      exact Nat.lt_succ_self _
  case completed =>
    intro n hn
    obtain ⟨hout, hlt⟩ := h.completed n hn
    refine ⟨fun hmem => ?_, Nat.lt_succ_of_lt hlt⟩
    rcases List.mem_append.mp hmem with hold | hlast
    · exact hout hold
    · exact Nat.lt_irrefl _ (List.mem_singleton.mp hlast ▸ hlt)
  case saved =>
    intro n g hg
    exact (h.saved n g hg).imp (List.mem_append_left _) id
  case results =>
    intro n c hc g
    rcases hunder hc with hold | ⟨rfl, rfl⟩
    · exact h.results n c hold g
    · -- its number is new, so nothing was entered under it
      refine ⟨fun hg => ?_, fun hg => absurd hg List.not_mem_nil⟩
      rcases h.saved _ g hg with hmem | hdone
      · exact absurd hmem hnew
      · exact absurd (h.completed _ hdone).2 (Nat.lt_irrefl _)
  case fetched =>
    intro n c hc ticket f hf
    rcases hunder hc with hold | ⟨rfl, rfl⟩
    · exact h.fetched n c hold ticket f hf
    · exact absurd hf List.not_mem_nil

theorem withMoved (h : j.Faithful) (hcopied : j.live.Copied) {place n : Nat} {c : Cycle}
    (hn : j.numbers[place]? = some n) (hc : j.live.cycles[place]? = some c) (move : CycleMove) :
    (j.withMoved place n c move).Faithful := by
  have hunder : (n, c) ∈ j.underWay := mem_zip_iff.mpr ⟨place, hn, hc⟩
  refine {
    aligned := by simpa [Journal.withMoved] using h.aligned, numbers := h.numbers, below := h.below
    completed := ?completed, saved := ?saved, results := ?results, fetched := ?fetched
    bodies := ?bodies, once := ?once }
  case completed =>
    intro m hm
    rcases List.mem_append.mp hm with hold | hnew
    · exact h.completed m hold
    · exact absurd hnew (Cycle.completed_notMem_entriesOf m)
  case saved =>
    intro m g hg
    rcases List.mem_append.mp hg with hold | hnew
    · exact (h.saved m g hold).imp id (List.mem_append_left _)
    · rw [(Cycle.saved_of_mem_entriesOf hnew).1]
      exact .inl (List.mem_of_getElem? hn)
  case results =>
    intro m d hd g
    simp only [Journal.withMoved, List.mem_append]
    rcases mem_zip_set h.numbers hn hd with ⟨rfl, rfl⟩ | ⟨hold, hne⟩
    · rw [Cycle.mem_results_move (n := m), h.results m c hunder g]
    · rw [← h.results m d hold g]
      exact ⟨fun hg => hg.resolve_right (fun hnew => hne (Cycle.saved_of_mem_entriesOf hnew).1),
        .inl⟩
  case fetched =>
    intro m d hd ticket f hf
    rcases mem_zip_set h.numbers hn hd with ⟨rfl, rfl⟩ | ⟨hold, _⟩
    · rcases Cycle.mem_active_move (n := m) hf with hactive | ⟨body, hbody, hentry⟩
      · obtain ⟨body, hbody, hentry⟩ := h.fetched m c hunder ticket f hactive
        exact ⟨body, hbody, List.mem_append_left _ hentry⟩
      · exact ⟨body, hbody, List.mem_append_right _ hentry⟩
    · obtain ⟨body, hbody, hentry⟩ := h.fetched m d hold ticket f hf
      exact ⟨body, hbody, List.mem_append_left _ hentry⟩
  case bodies =>
    intro m g hg
    rcases List.mem_append.mp hg with hold | hnew
    · obtain ⟨body, hbody, hentry⟩ := h.bodies m g hold
      exact ⟨body, hbody, List.mem_append_left _ hentry⟩
    · obtain ⟨rfl, ticket, f, t, hf, rfl⟩ := Cycle.saved_of_mem_entriesOf hnew
      obtain ⟨body, hbody, hentry⟩ := h.fetched m c hunder ticket f hf
      exact ⟨body, hbody, List.mem_append_left _ hentry⟩
  case once =>
    intro m g g' hg hg' hid
    -- an id whose copy is still under way has no older entry of this cycle
    have hclash : ∀ {g g' : Filter}, .saved m g ∈ j.entries →
        .saved m g' ∈ c.entriesOf n j.live.policy.limit j.live.service.store move →
        g.id ≠ g'.id := by
      intro g g' hold hnew
      obtain ⟨rfl, ticket, f, t, hf, rfl⟩ := Cycle.saved_of_mem_entriesOf hnew
      have hne : g.id ≠ f.id := h.id_ne_of_active hcopied hn hc hf hold
      exact hne
    rcases List.mem_append.mp hg with hold | hnew <;>
      rcases List.mem_append.mp hg' with hold' | hnew'
    · exact h.once m g g' hold hold' hid
    · exact absurd hid (hclash hold hnew')
    · exact absurd hid.symm (hclash hold' hnew)
    · obtain ⟨rfl, _⟩ := Cycle.saved_of_mem_entriesOf hnew
      exact Cycle.eq_of_mem_entriesOf hnew hnew'

theorem withEnded (h : j.Faithful) {place n : Nat} {c : Cycle} (hn : j.numbers[place]? = some n)
    (hc : j.live.cycles[place]? = some c) : (j.withEnded place n c).Faithful := by
  have hsaved : ∀ {m g}, .saved m g ∈ (j.withEnded place n c).entries ↔ .saved m g ∈ j.entries := by
    simp [Journal.withEnded]
  have hfetched : ∀ {m id body}, .fetchEnded m id body ∈ j.entries →
      .fetchEnded m id body ∈ (j.withEnded place n c).entries := List.mem_append_left _
  refine {
    aligned := ?aligned, numbers := h.numbers.eraseIdx place
    below := fun m hm => h.below m (List.mem_of_mem_eraseIdx hm)
    completed := ?completed, saved := ?saved, results := ?results, fetched := ?fetched
    bodies := ?bodies
    once := fun m g g' hg hg' => h.once m g g' (hsaved.mp hg) (hsaved.mp hg') }
  case aligned => simp [Journal.withEnded, List.length_eraseIdx, h.aligned]
  case completed =>
    intro m hm
    rcases List.mem_append.mp hm with hold | hnew
    · obtain ⟨hout, hlt⟩ := h.completed m hold
      exact ⟨fun hmem => hout (List.mem_of_mem_eraseIdx hmem), hlt⟩
    · cases List.mem_singleton.mp hnew
      refine ⟨fun hmem => ?_, h.below n (List.mem_of_getElem? hn)⟩
      obtain ⟨i, hi, hget⟩ := List.mem_eraseIdx_iff_getElem?.mp hmem
      exact ne_of_getElem?_ne h.numbers hn hget hi rfl
  case saved =>
    intro m g hg
    rcases h.saved m g (hsaved.mp hg) with hmem | hdone
    · obtain ⟨i, hget⟩ := List.mem_iff_getElem?.mp hmem
      by_cases hi : i = place
      · subst hi
        rw [Option.some.inj (hget.symm.trans hn)]
        exact .inr (List.mem_append_right _ (List.mem_singleton_self _))
      · exact .inl (List.mem_eraseIdx_iff_getElem?.mpr ⟨i, hi, hget⟩)
    · exact .inr (List.mem_append_left _ hdone)
  case results =>
    intro m d hd g
    rw [hsaved]
    exact h.results m d (mem_zip_eraseIdx h.numbers hn hd).1 g
  case fetched =>
    intro m d hd ticket f hf
    obtain ⟨body, hbody, hentry⟩ :=
      h.fetched m d (mem_zip_eraseIdx h.numbers hn hd).1 ticket f hf
    exact ⟨body, hbody, hfetched hentry⟩
  case bodies =>
    intro m g hg
    obtain ⟨body, hbody, hentry⟩ := h.bodies m g (hsaved.mp hg)
    exact ⟨body, hbody, hfetched hentry⟩

end Faithful

theorem step_faithful (h : j.Faithful) (hcopied : j.live.Copied) (he : e.isOfCycle = true) :
    (j.step e).Faithful := by
  rcases step_cases h.aligned he with ⟨now, force, -, heq⟩ | ⟨place, n, c, move, hn, hc, heq⟩ |
    ⟨place, n, c, hn, hc, heq⟩ | heq <;> rw [heq]
  · exact h.withBegun now force
  · exact h.withMoved hcopied hn hc move
  · exact h.withEnded hn hc
  · exact h

end Journal

end FilterLists
