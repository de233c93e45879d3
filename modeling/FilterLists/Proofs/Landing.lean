import FilterLists.Proofs.Freshness
import FilterLists.Proofs.Refresh.Faithful
import FilterLists.Proofs.Registry.Merge

/-!
Where the results of cycles land, whatever requests and other cycles come between. An id and a URL
that were listed together and are no more never are again, since ids are given out once. The working
copies of a cycle have the ids and URLs of filters that were listed when it began. So a result lands
on a filter only if that has been listed ever since.
-/
namespace FilterLists

theorem Filter.Consistent.content_eq_none {f : Filter} (h : f.Consistent)
    (hdisabled : f.enabled = false) : f.content = none := by
  rcases Filter.consistent_iff.mp h with hbare | ⟨-, henabled⟩
  · exact hbare.1
  · cases hdisabled.symm.trans henabled

namespace Registry
variable {r : Registry} {results : List Refreshed}

/-- A filter is as before the merge, or there is a result for its id and URL, and its content is
that of the result or the one that it had. -/
theorem mem_mergeFrom (n : Nat) : ∀ g ∈ (r.mergeFrom n results).1.filters, g ∈ r.filters ∨
    ∃ fresh ∈ results, fresh.filter.subscription = g.subscription ∧
      (fresh.filter.content = g.content ∨
        ∃ f ∈ r.filters, f.subscription = g.subscription ∧ f.content = g.content) := by
  refine forall_mergeFrom_of_same n (fun f hf => .inl hf) (fun fresh hfresh live hsame hlive => ?_)
  obtain ⟨hid, hurl⟩ := sameSubscription_iff.mp hsame
  obtain ⟨hid', hurl', -⟩ := takeOver_subscription fresh live
  have hkey : (takeOver fresh live).subscription = live.subscription := Prod.ext hid' hurl'
  have hfor : fresh.filter.subscription = live.subscription := Prod.ext hid.symm hurl.symm
  rw [hkey]
  right
  by_cases hnew : (fresh.changed && live.enabled) = true
  · exact ⟨fresh, hfresh, hfor, .inl (by simp [takeOver, hnew])⟩
  · have hcontent : (takeOver fresh live).content = live.content := by simp [takeOver, hnew]
    rw [hcontent]
    rcases hlive with hold | hlanded
    · exact ⟨fresh, hfresh, hfor, .inr ⟨live, hold, rfl, rfl⟩⟩
    · exact hlanded

end Registry

namespace LiveService
variable {l : LiveService} {key : FilterId × String}

/-- Every filter has an id for good. -/
structure Settled (l : LiveService) : Prop extends Reserved l where
  numbered : ∀ f ∈ l.service.registry.filters, f.id ≠ 0
  positive : ∀ f, .appending f ∈ l.adds → 0 < f.id
  counter : 0 < l.service.registry.nextId

theorem step_settled (h : l.Settled) (e : ServiceEvent)
    (hcounter : (l.step e).service.registry.nextId < Int64.maxValue) : (l.step e).Settled :=
  ⟨step_reserved h.toReserved e hcounter, ne_zero_step h.counter h.positive h.numbered e,
    fun _ hf => pos_appending_step h.counter h.positive hf,
    Int64.lt_of_lt_of_le h.counter (l.nextId_le_step e)⟩

theorem run_settled (h : l.Settled) {events : List ServiceEvent}
    (hcounter : (l.run events).service.registry.nextId < Int64.maxValue) :
    (l.run events).Settled := by
  induction events generalizing l with
  | nil => exact h
  | cons e rest ih =>
    have hlater := nextId_le_run (l.step e) rest
    exact ih (step_settled h e (Int64.lt_of_le_of_lt hlater hcounter)) hcounter

structure IsGone (l : LiveService) (key : FilterId × String) : Prop where
  spent : l.IsSpent key.1
  unlisted : key ∉ l.subscriptions

theorem IsGone.step (h : l.IsGone key) (hsettled : l.Settled) (e : ServiceEvent) :
    (l.step e).IsGone key := by
  refine ⟨h.spent.step e, ?_⟩
  rcases l.subscriptions_step e with ⟨faults, rfl⟩ | ⟨place, f, _, hf, _, hfilters⟩ | hsub
  · have hsame := Registry.map_subscription_loadAll (l.service.store.keeps_load faults)
      l.service.registry
    rw [Registry.assignMissing_of_ne_zero hsettled.numbered] at hsame
    have hkept : (l.step (.loadsAll faults)).subscriptions = l.subscriptions := hsame
    rw [hkept]
    exact h.unlisted
  · rw [subscriptions, hfilters, List.map_append, List.map_singleton]
    intro hmem
    rcases List.mem_append.mp hmem with hold | hlast
    · exact h.unlisted hold
    · exact h.spent.2 f (List.mem_of_getElem? hf)
        (congrArg Prod.fst (List.mem_singleton.mp hlast)).symm
  · exact fun hmem => h.unlisted (hsub.subset hmem)

theorem IsGone.run (h : l.IsGone key) (hsettled : l.Settled) {events : List ServiceEvent}
    (hcounter : (l.run events).service.registry.nextId < Int64.maxValue) :
    (l.run events).IsGone key := by
  induction events generalizing l with
  | nil => exact h
  | cons e rest ih =>
    have hlater := nextId_le_run (l.step e) rest
    exact ih (h.step hsettled e)
      (step_settled hsettled e (Int64.lt_of_le_of_lt hlater hcounter)) hcounter

theorem Reserved.isSpent (h : l.Reserved) (hlisted : key ∈ l.subscriptions) : l.IsSpent key.1 := by
  obtain ⟨f, hf, rfl⟩ := List.mem_map.mp hlisted
  exact ⟨h.listed f hf, fun g hg => (h.unlisted g hg f hf).symm⟩

theorem IsSpent.run {id : FilterId} (h : l.IsSpent id) (events : List ServiceEvent) :
    (l.run events).IsSpent id := by
  induction events generalizing l with
  | nil => exact h
  | cons e rest ih => exact ih (h.step e)

/-- What was listed and is no more never is again. -/
theorem Settled.notMem_of_removed (h : l.Settled) {more rest : List ServiceEvent}
    (hlisted : key ∈ l.subscriptions) (hremoved : key ∉ (l.run more).subscriptions)
    (hcounter : (l.run (more ++ rest)).service.registry.nextId < Int64.maxValue) :
    key ∉ (l.run (more ++ rest)).subscriptions := by
  rw [run_append] at hcounter ⊢
  have hnow := Int64.lt_of_le_of_lt (nextId_le_run (l.run more) rest) hcounter
  have hgone : (l.run more).IsGone key := ⟨(h.toReserved.isSpent hlisted).run more, hremoved⟩
  exact (hgone.run (run_settled h hnow) hcounter).unlisted

end LiveService

namespace Journal
variable {j : Journal} {e : ServiceEvent}

/-- An event that belongs to no cycle leaves the cycles and their numbers alone. -/
theorem step_frame (he : e.isOfCycle = false) :
    (j.step e).numbers = j.numbers ∧ (j.step e).live.cycles = j.live.cycles := by
  cases e with
  | cycleBegins | cycleEnds | downloadStarts | downloadEnds | persists => cases he
  | addProceeds place => exact ⟨rfl, (j.live.addProceeds_frame place).2.1⟩
  | removeProceeds place faults => exact ⟨rfl, (j.live.removeProceeds_frame place faults).2.1⟩
  | addBegins | removeBegins | switches | loadsAll | deduplicates | assignsId | raisesIdFloor
  | setsUserRules | fileVanishes => exact ⟨rfl, rfl⟩

theorem aligned_step (h : j.numbers.length = j.live.cycles.length) (e : ServiceEvent) :
    (j.step e).numbers.length = (j.step e).live.cycles.length := by
  cases he : e.isOfCycle with
  | false =>
    obtain ⟨hnumbers, hcycles⟩ := step_frame (j := j) he
    rw [hnumbers, hcycles, h]
  | true =>
    rcases step_cases h he with ⟨now, force, -, heq⟩ | ⟨place, n, c, move, -, -, heq⟩ |
      ⟨place, n, c, -, -, heq⟩ | heq <;> rw [heq]
    · simp [withBegun, h]
    · simpa [withMoved] using h
    · simp [withEnded, List.length_eraseIdx, h]
    · exact h

theorem aligned_run (h : j.numbers.length = j.live.cycles.length) (events : List ServiceEvent) :
    (j.run events).numbers.length = (j.run events).live.cycles.length := by
  induction events generalizing j with
  | nil => exact h
  | cons e rest ih => exact ih (aligned_step h e)

theorem exists_number (haligned : j.numbers.length = j.live.cycles.length) {place : Nat} {c : Cycle}
    (hc : j.live.cycles[place]? = some c) : ∃ n, j.underWay[place]? = some (n, c) := by
  obtain ⟨hlt, -⟩ := List.getElem?_eq_some_iff.mp hc
  have hn := List.getElem?_eq_getElem (haligned ▸ hlt)
  exact ⟨_, underWay_getElem?_eq_some.mpr ⟨hn, hc⟩⟩

/-- A cycle under way has just begun, or was under way before, and its working copies are of the
same subscriptions. -/
theorem mem_underWay_step (haligned : j.numbers.length = j.live.cycles.length) {n : Nat} {d : Cycle}
    (h : (n, d) ∈ (j.step e).underWay) :
    (∃ now force, e = .cycleBegins now force ∧ n = j.begun ∧
      d = .begin j.live.service j.live.policy now force) ∨
    ∃ c, (n, c) ∈ j.underWay ∧ ∀ g ∈ d.copies, ∃ f ∈ c.copies, f.id = g.id ∧ f.url = g.url := by
  have hold : (n, d) ∈ j.underWay → ∃ c, (n, c) ∈ j.underWay ∧
      ∀ g ∈ d.copies, ∃ f ∈ c.copies, f.id = g.id ∧ f.url = g.url :=
    fun hd => ⟨d, hd, fun g hg => ⟨g, hg, rfl, rfl⟩⟩
  cases he : e.isOfCycle with
  | false =>
    obtain ⟨hnumbers, hcycles⟩ := step_frame (j := j) he
    rw [underWay, hnumbers, hcycles] at h
    exact .inr (hold h)
  | true =>
    rcases step_cases haligned he with ⟨now, force, rfl, heq⟩ | ⟨place, m, c, move, hm, hc, heq⟩ |
      ⟨place, m, c, -, -, heq⟩ | heq <;> rw [heq] at h
    · rw [underWay, withBegun, List.zip_append haligned] at h
      rcases List.mem_append.mp h with hkept | hnew
      · exact .inr (hold hkept)
      · obtain ⟨rfl, rfl⟩ : n = j.begun ∧ d = .begin j.live.service j.live.policy now force := by
          simpa [List.zip, List.zipWith] using hnew
        exact .inl ⟨now, force, rfl, rfl, rfl⟩
    · obtain ⟨i, hn, hd⟩ := mem_zip_iff.mp h
      -- only the cycle in this place has moved, and a move keeps its subscriptions
      simp only [withMoved] at hn hd
      by_cases hi : i = place
      · subst hi
        obtain rfl : m = n := Option.some.inj (hm.symm.trans hn)
        obtain rfl : (Cycle.move j.live.policy.limit (j.live.service.store, c) move).2 = d := by
          obtain ⟨hlt, hget⟩ := List.getElem?_eq_some_iff.mp hd
          simpa using hget
        exact .inr ⟨c, mem_zip_iff.mpr ⟨i, hm, hc⟩, Cycle.forall_copies_move
          (P := fun id url => ∃ f ∈ c.copies, f.id = id ∧ f.url = url)
          (fun f hf => ⟨f, hf, rfl, rfl⟩)⟩
      · rw [List.getElem?_set_ne (Ne.symm hi)] at hd
        exact .inr (hold (mem_zip_iff.mpr ⟨i, hn, hd⟩))
    · obtain ⟨i, hn, hd⟩ := mem_zip_iff.mp h
      simp only [withEnded, List.getElem?_eraseIdx] at hn hd
      split at hn
      · next hlt =>
        rw [if_pos hlt] at hd
        exact .inr (hold (mem_zip_iff.mpr ⟨i, hn, hd⟩))
      · next hge =>
        rw [if_neg hge] at hd
        exact .inr (hold (mem_zip_iff.mpr ⟨i + 1, hn, hd⟩))
    · exact .inr (hold h)

/-- A cycle under way has begun at some moment with copies of filters that were listed. -/
theorem exists_begun (start : LiveService) (hidle : start.cycles = []) (events : List ServiceEvent)
    {n : Nat} {c : Cycle} (h : (n, c) ∈ (Journal.run { live := start } events).underWay) :
    ∃ first now force between, events = first ++ .cycleBegins now force :: between ∧
      (Journal.run { live := start } first).begun = n ∧
      ∀ g ∈ c.copies, g.subscription ∈ (start.run first).subscriptions := by
  induction events using List.reverseRecOn generalizing c with
  | nil => simp [run, underWay] at h
  | append_singleton earlier e ih =>
    have haligned := aligned_run (j := { live := start }) (by simp [hidle]) earlier
    have hlive := run_live { live := start } earlier
    rw [run, List.foldl_append] at h
    rcases mem_underWay_step haligned h with ⟨now, force, rfl, rfl, rfl⟩ | ⟨d, hd, hcopies⟩
    · refine ⟨earlier, now, force, [], rfl, rfl, fun g hg => ?_⟩
      obtain ⟨f, hf, -, hid, hurl⟩ := LiveService.mem_copies_begin hg
      rw [hlive] at hf
      exact List.mem_map.mpr ⟨f, hf, Prod.ext hid hurl⟩
    · obtain ⟨first, now, force, between, rfl, hbegun, hlisted⟩ := ih hd
      refine ⟨first, now, force, between ++ [e], by simp, hbegun, fun g hg => ?_⟩
      obtain ⟨f, hf, hid, hurl⟩ := hcopies g hg
      exact (Prod.ext hid hurl : f.subscription = g.subscription) ▸ hlisted f hf

end Journal

namespace LiveService

section Start
variable {born : Instant} {configured : List Filter} {rules : List String} {unloaded : LiveService}

/-- A configuration starts with an id for every filter. -/
theorem settled_start (hborn : born.seconds ≤ Int64.maxValue.toInt)
    (hconfigured : unloaded.service.registry = Registry.ofConfigured born configured rules)
    (hadds : unloaded.adds = []) (faults : Filter → Faults)
    (hcounter : (unloaded.step (.loadsAll faults)).service.registry.nextId < Int64.maxValue) :
    (unloaded.step (.loadsAll faults)).Settled := by
  have hle := unloaded.nextId_le_step (.loadsAll faults)
  have hfirst : 0 < unloaded.service.registry.nextId := by
    rw [hconfigured]
    exact Int64.lt_of_lt_of_le (Registry.pos_nextId_empty hborn) (Registry.le_raised _ configured)
  have hreserved := reserved_start hconfigured hadds (Int64.lt_of_le_of_lt hle hcounter)
  have hpending : ∀ f, .appending f ∈ unloaded.adds → 0 < f.id := by simp [hadds]
  exact ⟨step_reserved hreserved _ hcounter, ne_zero_loadsAll hfirst faults,
    fun _ hf => pos_appending_step hfirst hpending hf, Int64.lt_of_lt_of_le hfirst hle⟩

/-- The filters of a configuration that get contents from the cache agree with these. -/
theorem consistent_start (hbare : ∀ f ∈ configured, f.IsBare)
    (hconfigured : unloaded.service.registry = Registry.ofConfigured born configured rules)
    (hadds : unloaded.adds = []) (hcycles : unloaded.cycles = []) (faults : Filter → Faults) :
    (unloaded.step (.loadsAll faults)).Consistent := by
  refine step_consistent ⟨?_, by simp [hadds], by simp [hcycles]⟩ _
  rw [hconfigured]
  exact fun f hf => (hbare f ((Registry.ofConfigured_sublist born configured rules).subset hf)).consistent

end Start

/-- What the end of a cycle does to a filter: nothing, or it brings a result for its id and URL. -/
theorem mem_cycleEnds (l : LiveService) (place : Nat) :
    ∀ g ∈ (l.step (.cycleEnds place)).service.registry.filters, g ∈ l.service.registry.filters ∨
      ∃ c, l.cycles[place]? = some c ∧
        ∃ fresh ∈ c.results, fresh.filter.subscription = g.subscription ∧
          (fresh.filter.content = g.content ∨ ∃ f ∈ l.service.registry.filters,
            f.subscription = g.subscription ∧ f.content = g.content) := by
  intro g hg
  rcases l.cycleEnds_cases place with ⟨c, hc, -, hservice, -⟩ | heq
  · rw [hservice, Cycle.registry_conclude] at hg
    exact (Registry.mem_mergeFrom 0 g hg).imp_right (fun hlanded => ⟨c, hc, hlanded⟩)
  · rw [heq] at hg
    exact .inl hg

theorem map_frame_cycleEnds (l : LiveService) (place : Nat) :
    (l.step (.cycleEnds place)).service.registry.filters.map frame =
      l.service.registry.filters.map frame := by
  rcases l.cycleEnds_cases place with ⟨c, -, -, hservice, -⟩ | heq
  · rw [hservice]
    exact map_frame_conclude l.service c
  · rw [heq]

/-- From the start of a configuration on, while ids are left, whatever comes before the end of a
cycle: the filters keep their order, ids, URLs and flags, and a disabled one holds no content. A
subscription that was removed at some moment is not listed. A filter is as before, or it gets a
result of this cycle for its id and URL, and has been listed with them ever since the cycle began.
-/
theorem merge_safe_of_run (born : Instant) (hborn : born.seconds ≤ Int64.maxValue.toInt)
    (configured : List Filter) (hbare : ∀ f ∈ configured, f.IsBare) (rules : List String)
    (store : Store) (faults : Filter → Faults) (engine : Engine) (policy : RefreshPolicy)
    (events : List ServiceEvent) (place : Nat) :
    let registry := (Registry.ofConfigured born configured rules).loadAll
      (fun f => store.load (faults f) f)
    let start : LiveService := { service := { registry, store, engine }, policy }
    let before := start.run events
    let after := before.step (.cycleEnds place)
    after.service.registry.nextId < Int64.maxValue →
    after.service.registry.filters.map frame = before.service.registry.filters.map frame ∧
      (∀ l ∈ [before, after], ∀ f ∈ l.service.registry.filters,
        f.enabled = false → f.content = none) ∧
      (∀ earlier more later, events = earlier ++ more ++ later →
        ∀ key ∈ (start.run earlier).subscriptions,
          key ∉ (start.run (earlier ++ more)).subscriptions → key ∉ after.subscriptions) ∧
      ∀ g ∈ after.service.registry.filters, g ∈ before.service.registry.filters ∨
        ∃ n c fresh first now force between,
          (Journal.run { live := start } events).underWay[place]? = some (n, c) ∧
          events = first ++ .cycleBegins now force :: between ∧
          (Journal.run { live := start } first).begun = n ∧
          fresh ∈ c.results ∧ fresh.filter.subscription = g.subscription ∧
          (fresh.filter.content = g.content ∨ ∃ f ∈ before.service.registry.filters,
            f.subscription = g.subscription ∧ f.content = g.content) ∧
          ∀ done, done <+: between →
            g.subscription ∈ (start.run (first ++ .cycleBegins now force :: done)).subscriptions := by
  intro registry start before after hcounter
  have hlast : after = start.run (events ++ [.cycleEnds place]) :=
    (run_append start events [.cycleEnds place]).symm
  rw [hlast] at hcounter
  -- the start is the outcome of a step, so its ids come from the counter
  let unloaded : LiveService :=
    { service := { registry := Registry.ofConfigured born configured rules, store, engine }, policy }
  have hloaded : start = unloaded.step (.loadsAll faults) := rfl
  have hsettled : start.Settled := by
    rw [hloaded] at hcounter ⊢
    exact settled_start hborn rfl rfl faults (Int64.lt_of_le_of_lt (nextId_le_run _ _) hcounter)
  have hconsistent : start.Consistent := hloaded ▸ consistent_start hbare rfl rfl rfl faults
  have hremoved : ∀ earlier more later, events = earlier ++ more ++ later →
      ∀ key ∈ (start.run earlier).subscriptions,
        key ∉ (start.run (earlier ++ more)).subscriptions → key ∉ after.subscriptions := by
    rintro earlier more later rfl key hlisted hunlisted
    rw [hlast]
    simp only [List.append_assoc, run_append start earlier] at hcounter hunlisted ⊢
    have hnow := Int64.lt_of_le_of_lt (nextId_le_run (start.run earlier) _) hcounter
    exact (run_settled hsettled hnow).notMem_of_removed hlisted hunlisted hcounter
  refine ⟨map_frame_cycleEnds before place, ?_, hremoved, fun g hg => ?_⟩
  · have hbefore : before.Consistent := run_consistent hconsistent events
    have hafter : after.Consistent := step_consistent hbefore _
    simp only [List.mem_cons, List.not_mem_nil, or_false, forall_eq_or_imp, forall_eq]
    exact ⟨fun f hf => (hbefore.filters f hf).content_eq_none,
      fun f hf => (hafter.filters f hf).content_eq_none⟩
  · refine (mem_cycleEnds before place g hg).imp_right ?_
    rintro ⟨c, hc, fresh, hfresh, hkey, hcontent⟩
    obtain ⟨n, hn⟩ := Journal.exists_number
      (Journal.aligned_run (j := { live := start }) rfl events) (by rwa [Journal.run_live])
    obtain ⟨first, now, force, between, hevents, hbegun, hcopies⟩ :=
      Journal.exists_begun start rfl events (List.mem_of_getElem? hn)
    have hlisted : g.subscription ∈ (start.run first).subscriptions :=
      hkey ▸ hcopies fresh.filter (Cycle.mem_copies_of_results hfresh)
    refine ⟨n, c, fresh, first, now, force, between, hn, hevents, hbegun, hfresh, hkey, hcontent, ?_⟩
    rintro done ⟨later, rfl⟩
    by_contra hunlisted
    exact hremoved first (.cycleBegins now force :: done) later (by simp [hevents]) g.subscription
      hlisted hunlisted (List.mem_map_of_mem hg)

def threeConfigured : List Filter :=
  [{ id := 7, url := "http://a", enabled := true }, { id := 8, url := "http://b", enabled := true },
    { id := 9, url := "http://c", enabled := true }]

/-- While a cycle downloads all three, the first is removed and added again, and the second is
disabled. -/
def addedAgainMeanwhile : List ServiceEvent :=
  [.cycleBegins ⟨0⟩ true, .downloadStarts 0 Faults.none, .downloadStarts 0 Faults.none,
    .downloadStarts 0 Faults.none, .removeBegins "http://a", .addBegins "http://a" "a" true,
    .addProceeds 0, .addProceeds 0, .addProceeds 0, .switches Faults.noneFor "http://b" false,
    .downloadEnds 0 0 (.plainText "x"), .downloadEnds 0 1 (.plainText "y"),
    .downloadEnds 0 2 (.plainText "z"), .persists 0 0 Faults.none ⟨5⟩,
    .persists 0 1 Faults.none ⟨5⟩, .persists 0 2 Faults.none ⟨5⟩]

def emptyCache : Store :=
  { path := "cache", place := some (.directory [] ⟨0⟩) }

def threeLoaded : LiveService :=
  { service :=
      { registry := (Registry.ofConfigured ⟨0⟩ threeConfigured []).loadAll
          (fun f => emptyCache.load (Faults.noneFor f) f)
        store := emptyCache } }

theorem merge_safe_of_addedAgainMeanwhile :
    let before := threeLoaded.run addedAgainMeanwhile
    let after := before.step (.cycleEnds 0)
    (∀ f ∈ threeConfigured, f.IsBare) ∧ after.service.registry.nextId < Int64.maxValue ∧
      after.service.registry.filters.map (fun f => (f.subscription, f.content)) =
        [((8, "http://b"), none), ((9, "http://c"), some (bytesOf "z")), ((10, "http://a"), none)] ∧
      after.service.registry.filters.map frame = before.service.registry.filters.map frame ∧
      (7, "http://a") ∉ after.subscriptions ∧
      ∃ g ∈ after.service.registry.filters, g.subscription = (9, "http://c") ∧
        g ∉ before.service.registry.filters ∧ ∃ first now force between,
          addedAgainMeanwhile = first ++ .cycleBegins now force :: between ∧ ∀ done, done <+: between →
            g.subscription ∈ (threeLoaded.run (first ++ .cycleBegins now force :: done)).subscriptions := by
  intro before after
  have hbare : ∀ f ∈ threeConfigured, f.IsBare := by simp [threeConfigured, Filter.IsBare]
  have hcounter : after.service.registry.nextId < Int64.maxValue := by decide +kernel
  have hlisted : after.service.registry.filters.map (fun f => (f.subscription, f.content)) =
      [((8, "http://b"), none), ((9, "http://c"), some (bytesOf "z")), ((10, "http://a"), none)] := by
    decide +kernel
  have hchanged : ∃ g ∈ after.service.registry.filters, g.subscription = (9, "http://c") ∧
      g ∉ before.service.registry.filters := by decide +kernel
  obtain ⟨hframe, -, hremoved, hlanded⟩ := merge_safe_of_run ⟨0⟩ (by decide) threeConfigured hbare []
    emptyCache Faults.noneFor {} {} addedAgainMeanwhile 0 hcounter
  have hgone : (7, "http://a") ∉ after.subscriptions :=
    hremoved [] (addedAgainMeanwhile.take 5) (addedAgainMeanwhile.drop 5) rfl (7, "http://a")
      (by decide +kernel) (by decide +kernel)
  obtain ⟨g, hg, hkey, hnew⟩ := hchanged
  obtain ⟨-, -, -, first, now, force, between, -, hevents, -, -, -, -, hsince⟩ :=
    (hlanded g hg).resolve_left hnew
  exact ⟨hbare, hcounter, hlisted, hframe, hgone, g, hg, hkey, hnew, first, now, force, between,
    hevents, hsince⟩

end LiveService

end FilterLists
