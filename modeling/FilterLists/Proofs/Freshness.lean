import FilterLists.Proofs.Consistency
import FilterLists.Proofs.Permanence
import FilterLists.Proofs.Refresh.Script
import FilterLists.Proofs.Refresh.Unchanged

/-! An enabled filter without content is due at any time as long as no cycle dates it. A cycle does
so if it has found the content unchanged that the filter has lost since the cycle began, and only an
enabling that cannot load the content brings a filter into this situation. -/
namespace FilterLists

def Filter.lacksContent (f : Filter) : Bool :=
  f.enabled && !f.holdsContent

namespace Filter
variable {f : Filter}

theorem lacksContent_iff : f.lacksContent = true ↔ f.enabled = true ∧ f.content = none := by
  simp [lacksContent, holdsContent]

theorem Consistent.checksum_eq_none (h : f.Consistent) (hlacks : f.lacksContent = true) :
    f.checksum = none := by
  have hnone := (lacksContent_iff.mp hlacks).2
  simp only [Consistent, hnone] at h
  exact h.1

end Filter

namespace Registry

/-- Enabling leaves a filter without content only where the load fails, and then without a date. -/
theorem undated_switch {load : Loader} (hload : ∀ f loaded, load f = .ok loaded → loaded.IsFilled)
    {enabled : Bool} {f : Filter} (h : (switch load enabled f).lacksContent = true) :
    (switch load enabled f).lastUpdated = none := by
  unfold switch at h ⊢
  cases enabled with
  | false => cases h
  | true =>
    simp only [if_true] at h ⊢
    cases hl : load { f with enabled := true } with
    | error e => rfl
    | ok loaded =>
      obtain ⟨content, hcontent, _⟩ := hload _ _ hl
      simp [hl, Filter.lacksContent, Filter.holdsContent, hcontent] at h

theorem loadEnabled_eq_self {load : Loader}
    (hload : ∀ f loaded, load f = .ok loaded → loaded.IsFilled) {f : Filter}
    (h : (loadEnabled load f).lacksContent = true) : loadEnabled load f = f := by
  unfold loadEnabled at h ⊢
  by_cases henabled : f.enabled = true
  · rw [if_pos henabled] at h ⊢
    cases hl : load f with
    | error e => rfl
    | ok loaded =>
      obtain ⟨content, hcontent, _⟩ := hload _ _ hl
      simp [hl, Filter.lacksContent, Filter.holdsContent, hcontent] at h
  · rw [if_neg henabled]

theorem unchanged_of_takeOver {fresh : Refreshed}
    (hfresh : fresh.changed = true → fresh.filter.IsFilled) {live : Filter}
    (h : (takeOver fresh live).lacksContent = true) :
    live.lacksContent = true ∧ fresh.changed = false := by
  unfold takeOver at h
  split_ifs at h with hboth
  · obtain ⟨content, hcontent, _⟩ := hfresh (Bool.and_eq_true_iff.mp hboth).1
    simp [Filter.lacksContent, Filter.holdsContent, hcontent] at h
  · have hlive : live.lacksContent = true := h
    have henabled := (Filter.lacksContent_iff.mp hlive).1
    exact ⟨hlive, by simpa [henabled] using hboth⟩

/-- A filter without a date is a candidate of every cycle, forced or not. -/
theorem mem_refreshCandidates_of_undated {r : Registry} {f : Filter} (hf : f ∈ r.filters)
    (henabled : f.enabled = true) (hundated : f.lastUpdated = none) (now : Instant)
    (threshold : Span) : f.refreshCopy ∈ r.refreshCandidates false now threshold := by
  refine List.mem_map_of_mem (List.mem_filter.mpr ⟨hf, ?_⟩)
  simp [henabled, Filter.isStale, hundated]

end Registry

namespace LiveService
variable {l : LiveService}

/-- A cycle under way may find the content of the filter unchanged. -/
def mayFindUnchanged (l : LiveService) (f : Filter) : Bool :=
  l.cycles.any (fun c => c.unchangedCopies.any (Registry.sameSubscription · f))

theorem mayFindUnchanged_eq_false_iff {f : Filter} : l.mayFindUnchanged f = false ↔
    ∀ c ∈ l.cycles, ∀ g ∈ c.unchangedCopies, ¬ (g.id = f.id ∧ g.url = f.url) := by
  simp [mayFindUnchanged, Registry.sameSubscription]

theorem mayFindUnchanged_congr {f g : Filter} (hid : f.id = g.id) (hurl : f.url = g.url) :
    l.mayFindUnchanged f = l.mayFindUnchanged g := by
  simp only [mayFindUnchanged, Registry.sameSubscription, hid, hurl]

theorem forall_unchangedCopies_step {P : FilterId → String → Prop} {e : ServiceEvent}
    (h : ∀ c ∈ l.cycles, ∀ g ∈ c.unchangedCopies, P g.id g.url)
    (hbegin : ∀ now force, e = .cycleBegins now force →
      ∀ g ∈ (Cycle.begin l.service l.policy now force).unchangedCopies, P g.id g.url) :
    ∀ d ∈ (l.step e).cycles, ∀ g ∈ d.unchangedCopies, P g.id g.url :=
  forall_cycles_step h hbegin (fun _ _ _ _ hc hl => Cycle.forall_unchangedCopies_launch hc hl)
    (fun _ ticket reply hc => Cycle.forall_unchangedCopies_receive hc ticket reply)
    (fun _ faults now ticket hc => Cycle.forall_unchangedCopies_persist hc _ faults now ticket)

/-- Only the beginning of a cycle makes a filter one that may be found unchanged. -/
theorem mayFindUnchanged_step {e : ServiceEvent} (hbegin : ∀ now force, e ≠ .cycleBegins now force)
    {f : Filter} (h : l.mayFindUnchanged f = false) : (l.step e).mayFindUnchanged f = false := by
  rw [mayFindUnchanged_eq_false_iff] at h ⊢
  exact forall_unchangedCopies_step (P := fun id url => ¬ (id = f.id ∧ url = f.url)) h
    fun now force he => absurd he (hbegin now force)

def isExposed (l : LiveService) : Bool :=
  l.service.registry.filters.any (fun f => f.lacksContent && l.mayFindUnchanged f)

theorem isExposed_eq_false_iff : l.isExposed = false ↔
    ∀ f ∈ l.service.registry.filters, f.lacksContent = true → l.mayFindUnchanged f = false := by
  simp [isExposed]

/-- Enabled filters without content have no date. -/
structure Undated (l : LiveService) : Prop where
  consistent : l.Consistent
  filters : ∀ f ∈ l.service.registry.filters, f.lacksContent = true → f.lastUpdated = none
  adds : ∀ f, .appending f ∈ l.adds → f.lastUpdated = none

theorem step_undated (h : l.Undated) (hexposed : l.isExposed = false) (e : ServiceEvent) :
    (l.step e).Undated := by
  have hloads : ∀ faults f loaded, l.service.loader faults f = .ok loaded → loaded.IsFilled :=
    fun faults f loaded hl => Store.isFilled_of_load hl
  refine ⟨step_consistent h.consistent e, ?_, fun f hf => ?_⟩
  · refine forall_filters_step e h.filters (fun f hf _ => h.adds f hf)
      (fun faults enabled f _ hlacks => Registry.undated_switch (hloads faults) hlacks)
      (fun faults f id _ hf hlacks => ?_) (fun place c _ hc => ?_)
    · have hsame := Registry.loadEnabled_eq_self (hloads faults) hlacks
      rw [hsame] at hlacks ⊢
      exact hf hlacks
    · have hmem : c ∈ l.cycles := List.mem_of_getElem? hc
      have hclear := isExposed_eq_false_iff.mp hexposed
      -- The merge also keeps that no cycle may date the filter, which excludes the unchanged.
      have hboth : ∀ f ∈ (l.service.registry.merge c.results).1.filters, f.lacksContent = true →
          f.lastUpdated = none ∧ l.mayFindUnchanged f = false := by
        refine Registry.forall_mergeFrom_of_same 0
          (fun f hf hlacks => ⟨h.filters f hf hlacks, hclear f hf hlacks⟩) ?_
        intro fresh hfresh live hsame hlive hlacks
        obtain ⟨hlacks', hunchanged⟩ := Registry.unchanged_of_takeOver
          ((h.consistent.cycles c hmem).results fresh hfresh) hlacks
        have hnone := mayFindUnchanged_eq_false_iff.mp (hlive hlacks').2 c hmem fresh.filter
          (Cycle.mem_unchangedCopies.mpr (.inr (.inr ⟨fresh, hfresh, hunchanged, rfl⟩)))
        simp only [Registry.sameSubscription, Bool.and_eq_true, decide_eq_true_eq] at hsame
        exact absurd ⟨hsame.1.symm, hsame.2.symm⟩ hnone
      exact fun f hf hlacks => (hboth f hf hlacks).1
  · rcases mem_adds_step hf with hold | ⟨place, url, name, enabled, _, _, rfl⟩
    · exact h.adds f hold
    · rfl

/-- At no moment of the run may a cycle date an enabled filter that has no content. -/
def NeverExposed (l : LiveService) : List ServiceEvent → Prop
  | [] => l.isExposed = false
  | e :: rest => l.isExposed = false ∧ (l.step e).NeverExposed rest

theorem run_undated (h : l.Undated) {events : List ServiceEvent} (hnever : l.NeverExposed events) :
    (l.run events).Undated := by
  induction events generalizing l with
  | nil => exact h
  | cons e rest ih => exact ih (step_undated h hnever.1 e) hnever.2

/-- The id was given out, and not to a filter that is still to be listed. -/
def IsSpent (l : LiveService) (id : FilterId) : Prop :=
  id < l.service.registry.nextId ∧ ∀ f, .appending f ∈ l.adds → f.id ≠ id

theorem IsSpent.step {id : FilterId} (h : l.IsSpent id) (e : ServiceEvent) :
    (l.step e).IsSpent id := by
  obtain ⟨hlt, hpending⟩ := h
  refine ⟨Int64.lt_of_lt_of_le hlt (l.nextId_le_step e), fun f hf => ?_⟩
  rcases mem_adds_step hf with hold | ⟨place, url, name, enabled, _, _, rfl⟩
  · exact hpending f hold
  · exact fun heq => Int64.lt_irrefl (heq ▸ hlt)

/-- Subscriptions are distinct, and a filter that is about to be listed has no working copy. -/
structure Apart (l : LiveService) : Prop extends Reserved l where
  subscriptions : l.subscriptions.Nodup
  copies : ∀ c ∈ l.cycles, ∀ g ∈ c.unchangedCopies, l.IsSpent g.id

theorem Apart.subscriptions_step (h : l.Apart) (e : ServiceEvent)
    (hcounter : (l.step e).service.registry.nextId < Int64.maxValue) :
    (l.step e).subscriptions.Nodup := by
  rcases l.subscriptions_step e with ⟨faults, rfl⟩ | ⟨place, f, _, _, hnew, hfilters⟩ | hsub
  · have heq := Registry.map_subscription_loadAll (l.service.store.keeps_load faults)
      l.service.registry
    rw [LiveService.subscriptions]
    exact heq.symm ▸ Registry.nodup_subscription_assignMissing h.subscriptions h.listed hcounter
  · rw [LiveService.subscriptions, hfilters, List.map_append, List.map_singleton]
    refine List.nodup_append.mpr ⟨h.subscriptions, List.nodup_singleton _, fun pair hpair other
      hother heq => hnew ?_⟩
    obtain ⟨g, hg, rfl⟩ := List.mem_map.mp hpair
    have hurl : g.url = f.url :=
      congrArg Prod.snd (heq.trans (List.mem_singleton.mp hother))
    exact hurl ▸ List.mem_map_of_mem hg
  · exact h.subscriptions.sublist hsub

theorem step_apart (h : l.Apart) (e : ServiceEvent)
    (hcounter : (l.step e).service.registry.nextId < Int64.maxValue) : (l.step e).Apart := by
  refine ⟨step_reserved h.toReserved e hcounter, h.subscriptions_step e hcounter, ?_⟩
  refine forall_unchangedCopies_step (P := fun id _ => (l.step e).IsSpent id)
    (fun c hc g hg => (h.copies c hc g hg).step e) ?_
  rintro now force rfl g hg
  obtain ⟨f, hf, _, hid, _⟩ := Cycle.exists_of_mem_unchangedCopies_begin hg
  exact hid ▸ ⟨h.listed f hf, fun f' hf' => (h.unlisted f' hf' f hf).symm⟩

/-- An enabling after which a cycle may date an enabled filter that has no content. -/
def exposes (l : LiveService) : ServiceEvent → Bool
  | .switches faults url true => (l.step (.switches faults url true)).isExposed
  | _ => false

/-- No other event brings this about. -/
theorem not_exposed_step (h : l.Apart) (hconsistent : l.Consistent) (hexposed : l.isExposed = false)
    {e : ServiceEvent} (hsafe : l.exposes e = false) : (l.step e).isExposed = false := by
  have hclear := isExposed_eq_false_iff.mp hexposed
  have hloads : ∀ faults f loaded, l.service.loader faults f = .ok loaded → loaded.IsFilled :=
    fun faults f loaded hl => Store.isFilled_of_load hl
  by_cases hbegin : ∃ now force, e = .cycleBegins now force
  · obtain ⟨now, force, rfl⟩ := hbegin
    refine isExposed_eq_false_iff.mpr (fun f hf hlacks => mayFindUnchanged_eq_false_iff.mpr ?_)
    intro d hd g hg hsame
    rcases List.mem_append.mp hd with hold | hnew
    · exact mayFindUnchanged_eq_false_iff.mp (hclear f hf hlacks) d hold g hg hsame
    · rw [List.mem_singleton.mp hnew] at hg
      -- the checksum that the copy begins with is none, so no body can have it
      obtain ⟨f', hf', hsum, hid, hurl⟩ := Cycle.exists_of_mem_unchangedCopies_begin hg
      have heq : f' = f := List.inj_on_of_nodup_map h.subscriptions hf' hf
        (Prod.ext (hid.trans hsame.1) (hurl.trans hsame.2))
      rw [heq, (hconsistent.filters f hf).checksum_eq_none hlacks] at hsum
      cases hsum
  by_cases hswitch : ∃ faults url, e = .switches faults url true
  · obtain ⟨faults, url, rfl⟩ := hswitch
    exact hsafe
  refine isExposed_eq_false_iff.mpr (fun f hf hlacks =>
    mayFindUnchanged_step (fun now force heq => hbegin ⟨now, force, heq⟩) ?_)
  revert f
  refine forall_filters_of_event e hclear (fun f hf _ => ?_) (fun faults url enabled he => ?_)
    (fun faults _ => ?_) (fun place c _ hc => ?_)
  · -- a filter that is added has an id that no working copy has
    exact mayFindUnchanged_eq_false_iff.mpr
      (fun c hc g hg hsame => (h.copies c hc g hg).2 f hf hsame.1.symm)
  · cases enabled with
    | true => exact absurd ⟨faults, url, he⟩ hswitch
    | false =>
      rw [Registry.setEnabled_filters]
      exact Registry.forall_modifyFirst hclear (fun f _ _ hlacks => by cases hlacks)
  · intro f hf hlacks
    obtain ⟨g, hg, rfl⟩ := List.mem_map.mp hf
    have hsame := Registry.loadEnabled_eq_self (hloads faults) hlacks
    rw [hsame] at hlacks ⊢
    rcases Registry.mem_assignMissing hg with ⟨hold, _⟩ | ⟨hle, _⟩
    · exact hclear g hold hlacks
    · refine mayFindUnchanged_eq_false_iff.mpr (fun c hc copy hcopy hsame => ?_)
      have hlt := (h.copies c hc copy hcopy).1
      exact Int64.lt_irrefl (Int64.lt_of_lt_of_le (hsame.1 ▸ hlt) hle)
  · refine Registry.forall_mergeFrom 0 hclear (fun fresh hfresh live hlive hlacks => ?_)
    have hresult := (hconsistent.cycles c (List.mem_of_getElem? hc)).results fresh hfresh
    obtain ⟨hid, hurl, _⟩ := Registry.takeOver_subscription fresh live
    rw [mayFindUnchanged_congr hid hurl]
    exact hlive (Registry.unchanged_of_takeOver hresult hlacks).1

def EnablesSafely (l : LiveService) : List ServiceEvent → Prop
  | [] => True
  | e :: rest => l.exposes e = false ∧ (l.step e).EnablesSafely rest

instance decidableEnablesSafely : (l : LiveService) → (events : List ServiceEvent) →
    Decidable (l.EnablesSafely events)
  | _, [] => inferInstanceAs (Decidable True)
  | l, e :: rest =>
    have := decidableEnablesSafely (l.step e) rest
    inferInstanceAs (Decidable (l.exposes e = false ∧ (l.step e).EnablesSafely rest))

theorem neverExposed_of_run (h : l.Apart) (hconsistent : l.Consistent)
    (hexposed : l.isExposed = false) {events : List ServiceEvent} (hsafe : l.EnablesSafely events)
    (hcounter : (l.run events).service.registry.nextId < Int64.maxValue) :
    l.NeverExposed events := by
  induction events generalizing l with
  | nil => exact hexposed
  | cons e rest ih =>
    have hlater := nextId_le_run (l.step e) rest
    exact ⟨hexposed, ih (step_apart h e (Int64.lt_of_le_of_lt hlater hcounter))
      (step_consistent hconsistent e) (not_exposed_step h hconsistent hexposed hsafe.1) hsafe.2
      hcounter⟩

/-- Start with filters that were never updated, no two of them with the same id and URL. Whatever
happens then: as long as no filter is enabled without content while a cycle may still find it
unchanged, every enabled filter without content counts as never updated and is due at any time. -/
theorem undated_of_run (born : Instant) (configured : List Filter)
    (hbare : ∀ f ∈ configured, f.IsBare) (hundated : ∀ f ∈ configured, f.lastUpdated = none)
    (hdistinct : (configured.map Filter.subscription).Nodup) (rules : List String) (store : Store)
    (engine : Engine) (policy : RefreshPolicy) (events : List ServiceEvent) :
    let registry := ((Registry.empty born).withFilters configured).withUserRules rules
    let start : LiveService := { service := { registry, store, engine }, policy }
    let last := (start.run events).service.registry
    start.EnablesSafely events → last.nextId < Int64.maxValue →
    ∀ f ∈ last.filters, f.enabled = true → f.content = none →
      f.lastUpdated = none ∧
        ∀ now threshold, f.refreshCopy ∈ last.refreshCandidates false now threshold := by
  intro registry start last hsafe hcounter f hf henabled hcontent
  have hnone : ∀ g, .appending g ∉ start.adds := fun g => List.not_mem_nil
  have hconsistent : start.Consistent :=
    ⟨fun g hg => (hbare g hg).consistent, fun g hg => absurd hg (hnone g),
      fun c hc => absurd hc List.not_mem_nil⟩
  have hfirst : registry.nextId < Int64.maxValue :=
    Int64.lt_of_le_of_lt (nextId_le_run start events) hcounter
  have hreserved : start.Reserved :=
    ⟨Registry.lt_raised hfirst, fun g hg => absurd hg (hnone g), fun g hg => absurd hg (hnone g),
      fun place other g g' hg => absurd (List.mem_of_getElem? hg) (hnone g)⟩
  have hapart : start.Apart := ⟨hreserved, hdistinct, fun c hc => absurd hc List.not_mem_nil⟩
  have hidle : start.isExposed = false := isExposed_eq_false_iff.mpr (fun g _ _ => rfl)
  have hstart : start.Undated :=
    ⟨hconsistent, fun g hg _ => hundated g hg, fun g hg => absurd hg (hnone g)⟩
  have hend := run_undated hstart (neverExposed_of_run hapart hconsistent hidle hsafe hcounter)
  have hdate := hend.filters f hf (Filter.lacksContent_iff.mpr ⟨henabled, hcontent⟩)
  exact ⟨hdate, Registry.mem_refreshCandidates_of_undated hf henabled hdate⟩

/-- Two filters get contents, and a second cycle has found the first one unchanged. -/
def firstFoundUnchanged : List ServiceEvent :=
  [.cycleBegins ⟨5⟩ false, .downloadStarts 0 Faults.none, .downloadStarts 0 Faults.none,
    .downloadEnds 0 0 (.plainText "a"), .downloadEnds 0 1 (.plainText "b"),
    .persists 0 0 Faults.none ⟨5⟩, .persists 0 1 Faults.none ⟨5⟩, .cycleEnds 0,
    .cycleBegins ⟨9⟩ true, .downloadStarts 0 Faults.none, .downloadStarts 0 Faults.none,
    .downloadEnds 0 0 (.plainText "a"), .persists 0 0 Faults.none ⟨9⟩]

def lastWritten : List ServiceEvent :=
  [.downloadEnds 0 1 (.plainText "c"), .persists 0 1 Faults.none ⟨9⟩, .cycleEnds 0]

/-- Its file vanishes, and it is disabled and enabled. -/
def lostAndEnabled : List ServiceEvent :=
  [.fileVanishes 1, .switches Faults.noneFor "http://a" false,
    .switches Faults.noneFor "http://a" true]

theorem undated_of_lostAndEnabled :
    let registry := ((Registry.empty ⟨0⟩).withFilters twoConfigured).withUserRules []
    let start : LiveService := { service := { registry, store := { path := "cache" } } }
    let events := firstFoundUnchanged ++ lastWritten ++ lostAndEnabled
    (∀ f ∈ twoConfigured, f.IsBare) ∧ (∀ f ∈ twoConfigured, f.lastUpdated = none) ∧
      (twoConfigured.map Filter.subscription).Nodup ∧ start.EnablesSafely events ∧
      (start.run events).service.registry.nextId < Int64.maxValue ∧
      (start.run events).service.registry.filters.map Filter.content = [none, some (bytesOf "c")] ∧
      ∀ f ∈ (start.run events).service.registry.filters, f.enabled = true → f.content = none →
        f.lastUpdated = none ∧ ∀ now threshold,
          f.refreshCopy ∈ (start.run events).service.registry.refreshCandidates false now threshold := by
  have hbare : ∀ f ∈ twoConfigured, f.IsBare := by simp [twoConfigured, Filter.IsBare]
  have hundated : ∀ f ∈ twoConfigured, f.lastUpdated = none := by simp [twoConfigured]
  have hdistinct : (twoConfigured.map Filter.subscription).Nodup := by decide
  refine ⟨hbare, hundated, hdistinct, by decide +kernel, by decide +kernel, by decide +kernel, ?_⟩
  exact undated_of_run ⟨0⟩ twoConfigured hbare hundated hdistinct [] { path := "cache" } {} {} _
    (by decide +kernel) (by decide +kernel)

/-- If it is lost and enabled before the cycle ends, then it has a date afterwards and is not due.
-/
theorem not_undated_of_lostAndEnabled :
    let registry := ((Registry.empty ⟨0⟩).withFilters twoConfigured).withUserRules []
    let start : LiveService := { service := { registry, store := { path := "cache" } } }
    let last := start.run (firstFoundUnchanged ++ lostAndEnabled ++ lastWritten)
    last.isIdle = true ∧ ∃ f ∈ last.service.registry.filters,
      f.enabled = true ∧ f.content = none ∧ f.lastUpdated = some ⟨9⟩ ∧
        f.refreshCopy ∉ last.service.registry.refreshCandidates false ⟨9⟩ (.ofHours 24) := by
  refine ⟨by decide +kernel, { id := 1, url := "http://a", enabled := true, lastUpdated := some ⟨9⟩ },
    by decide +kernel, rfl, rfl, rfl, by decide +kernel⟩

end LiveService

end FilterLists
