import FilterLists.Proofs.Refresh.Copies
import FilterLists.Proofs.Refresh.Step

/-! The fields that describe the content of a filter agree with it, whatever cycles, requests and
failures come between one another. -/
namespace FilterLists

namespace Filter

/-- The checksum and the rule count are those of the content, which only an enabled filter holds. A
filter without content has neither. -/
def Consistent (f : Filter) : Prop :=
  match f.content with
  | some content =>
    f.checksum = some (FilterLists.checksum content) ∧
      f.ruleCount = (Content.Summary.ofBytes content).ruleCount ∧ f.enabled = true
  | none => f.checksum = none ∧ f.ruleCount = 0

/-- No content and nothing that describes one, as in a configured filter. -/
def IsBare (f : Filter) : Prop :=
  f.content = none ∧ f.checksum = none ∧ f.ruleCount = 0

/-- A content with its own checksum and rule count. -/
def IsFilled (f : Filter) : Prop :=
  ∃ content, f.content = some content ∧ f.checksum = some (FilterLists.checksum content) ∧
    f.ruleCount = (Content.Summary.ofBytes content).ruleCount

variable {f : Filter}

theorem IsBare.consistent (h : f.IsBare) : f.Consistent := by
  obtain ⟨hcontent, hsum, hcount⟩ := h
  simp only [Consistent, hcontent]
  exact ⟨hsum, hcount⟩

theorem IsFilled.consistent (h : f.IsFilled) (henabled : f.enabled = true) : f.Consistent := by
  obtain ⟨content, hcontent, hsum, hcount⟩ := h
  simp only [Consistent, hcontent]
  exact ⟨hsum, hcount, henabled⟩

theorem consistent_iff : f.Consistent ↔ f.IsBare ∨ (f.IsFilled ∧ f.enabled = true) := by
  constructor
  · intro h
    cases hcontent : f.content with
    | none =>
      simp only [Consistent, hcontent] at h
      exact .inl ⟨hcontent, h.1, h.2⟩
    | some content =>
      simp only [Consistent, hcontent] at h
      exact .inr ⟨⟨content, hcontent, h.1, h.2.1⟩, h.2.2⟩
  · rintro (h | ⟨h, henabled⟩)
    · exact h.consistent
    · exact h.consistent henabled

theorem isFilled_setContent (f : Filter) (content : Bytes) : (f.setContent content).IsFilled :=
  ⟨content, rfl, rfl, rfl⟩

theorem isFilled_of_applyFetched {body : Bytes} {fetched : Filter}
    (h : f.applyFetched body = (fetched, true)) : fetched.IsFilled := by
  unfold applyFetched at h
  split at h
  · cases h
  · cases h
    exact ⟨body, rfl, rfl, rfl⟩

end Filter

namespace Registry

theorem consistent_switch {load : Loader} (hkeeps : Keeps load)
    (hload : ∀ f loaded, load f = .ok loaded → loaded.IsFilled) (enabled : Bool) {f : Filter}
    (h : f.Consistent) : (switch load enabled f).Consistent := by
  cases enabled with
  | false => exact Filter.IsBare.consistent ⟨rfl, rfl, rfl⟩
  | true =>
    simp only [switch, if_true]
    cases hl : load { f with enabled := true } with
    | error e =>
      rcases Filter.consistent_iff.mp h with hbare | ⟨hfilled, _⟩
      · exact Filter.IsBare.consistent hbare
      · exact Filter.IsFilled.consistent hfilled rfl
    | ok loaded => exact (hload _ _ hl).consistent (hkeeps _ _ hl).2.2.2

theorem consistent_loadEnabled {load : Loader} (hkeeps : Keeps load)
    (hload : ∀ f loaded, load f = .ok loaded → loaded.IsFilled) {f : Filter}
    (h : f.Consistent) : (loadEnabled load f).Consistent := by
  unfold loadEnabled
  split_ifs with henabled
  · cases hl : load f with
    | error e => exact h
    | ok loaded => exact (hload _ _ hl).consistent ((hkeeps _ _ hl).2.2.2.trans henabled)
  · exact h

theorem consistent_takeOver {fresh : Refreshed}
    (hfresh : fresh.changed = true → fresh.filter.IsFilled) {live : Filter}
    (h : live.Consistent) : (takeOver fresh live).Consistent := by
  unfold takeOver
  split_ifs with hboth
  · obtain ⟨hchanged, henabled⟩ := Bool.and_eq_true_iff.mp hboth
    obtain ⟨content, hcontent, hsum, hcount⟩ := hfresh hchanged
    exact Filter.IsFilled.consistent ⟨content, hcontent, hsum, hcount⟩ henabled
  · exact h

end Registry

namespace Store

theorem isFilled_of_load {s : Store} {faults : Faults} {f loaded : Filter}
    (h : s.load faults f = .ok loaded) : loaded.IsFilled := by
  rcases s.load_cases faults f with ⟨content, t, _, heq⟩ | ⟨e, heq⟩
  · cases heq.symm.trans h
    exact ⟨content, rfl, rfl, rfl⟩
  · cases heq.symm.trans h

end Store

namespace Cycle

/-- Whatever the cycle has downloaded as new comes with its own checksum and rule count. -/
structure Consistent (c : Cycle) : Prop where
  fetched : ∀ ticket f, .fetched ticket f true ∈ c.active → f.IsFilled
  results : ∀ fresh ∈ c.results, fresh.changed = true → fresh.filter.IsFilled

theorem consistent_begin (s : Service) (policy : RefreshPolicy) (now : Instant) (force : Bool) :
    (begin s policy now force).Consistent :=
  ⟨by simp [begin], by simp [begin]⟩

theorem Consistent.launch {c launched : Cycle} {s : Store} {faults : Faults} {limit : Nat}
    {f : Filter} (h : c.Consistent) (hl : c.launch? s faults limit = some (launched, f)) :
    launched.Consistent := by
  obtain ⟨_, rest, _, _, hd⟩ := launch?_cases hl
  exact ⟨fun ticket g hg => h.fetched ticket g (fetched_of_launch hl hg), hd ▸ h.results⟩

theorem Consistent.receive {c : Cycle} (h : c.Consistent) (ticket : Nat) (reply : Reply) :
    (c.receive ticket reply).Consistent := by
  refine ⟨fun t g hg => ?_, h.results⟩
  rcases fetched_of_receive hg with hold | ⟨f, _, happly⟩
  · exact h.fetched t g hold
  · obtain ⟨body, hbody⟩ := Fetch.apply_cases happly
    exact Filter.isFilled_of_applyFetched hbody

theorem Consistent.persist {c : Cycle} (h : c.Consistent) (s : Store) (faults : Faults)
    (now : Instant) (ticket : Nat) : (c.persist s faults now ticket).2.Consistent := by
  rcases c.persist_cases s faults now ticket with ⟨f, changed, hf, heq⟩ | heq
  · rw [heq]
    refine ⟨fun t g hg => h.fetched t g (List.mem_filter.mp hg).1, fun fresh hfresh hchanged => ?_⟩
    rcases List.mem_append.mp hfresh with hold | hnew
    · exact h.results fresh hold hchanged
    · obtain ⟨t, rfl⟩ := Refresh.persist_outcome (Option.mem_toList.mp hnew)
      simp only at hchanged
      subst hchanged
      exact h.fetched ticket f hf
  · rw [heq]
    exact h

end Cycle

namespace LiveService

theorem cycles_consistent_step {l : LiveService} (h : ∀ c ∈ l.cycles, c.Consistent)
    (e : ServiceEvent) : ∀ d ∈ (l.step e).cycles, d.Consistent :=
  forall_cycles_step h (fun now force _ => Cycle.consistent_begin _ _ now force)
    (fun _ _ _ _ hc hl => hc.launch hl) (fun _ ticket reply hc => hc.receive ticket reply)
    (fun _ faults now ticket hc => hc.persist _ faults now ticket)

structure Consistent (l : LiveService) : Prop where
  filters : ∀ f ∈ l.service.registry.filters, f.Consistent
  adds : ∀ f, .appending f ∈ l.adds → f.Consistent
  cycles : ∀ c ∈ l.cycles, c.Consistent

theorem step_consistent {l : LiveService} (h : l.Consistent) (e : ServiceEvent) :
    (l.step e).Consistent := by
  constructor
  · refine forall_filters_step e h.filters h.adds (fun faults enabled f hf => ?_)
      (fun faults f id _ hf => ?_) (fun place c _ hc => ?_)
    · exact Registry.consistent_switch (l.service.store.keeps_load faults)
        (fun g loaded hl => Store.isFilled_of_load hl) enabled hf
    · exact Registry.consistent_loadEnabled (l.service.store.keeps_load faults)
        (fun g loaded hl => Store.isFilled_of_load hl) hf
    · exact Registry.forall_mergeFrom 0 h.filters (fun fresh hfresh live hlive =>
        Registry.consistent_takeOver ((h.cycles c (List.mem_of_getElem? hc)).results fresh hfresh)
          hlive)
  · intro f hf
    rcases mem_adds_step hf with hold | ⟨place, url, name, enabled, _, _, rfl⟩
    · exact h.adds f hold
    · exact Filter.IsBare.consistent ⟨rfl, rfl, rfl⟩
  · exact cycles_consistent_step h.cycles e

theorem run_consistent {l : LiveService} (h : l.Consistent) (events : List ServiceEvent) :
    (l.run events).Consistent := by
  induction events generalizing l with
  | nil => exact h
  | cons e rest ih => exact ih (step_consistent h e)

/-- However requests, overlapping cycles, answers, refused file operations and outsiders come
between one another, and whatever the cache holds, every filter agrees with its content. -/
theorem consistent_of_run_withFilters (born : Instant) (configured : List Filter)
    (hbare : ∀ f ∈ configured, f.IsBare) (rules : List String) (store : Store) (engine : Engine)
    (policy : RefreshPolicy) (events : List ServiceEvent) :
    let registry := ((Registry.empty born).withFilters configured).withUserRules rules
    let start : LiveService := { service := { registry, store, engine }, policy }
    ∀ f ∈ (start.run events).service.registry.filters, f.Consistent := by
  intro registry start
  have hstart : start.Consistent :=
    ⟨fun f hf => (hbare f hf).consistent, fun f hf => absurd hf List.not_mem_nil,
      fun c hc => absurd hc List.not_mem_nil⟩
  exact (run_consistent hstart events).filters

def twoConfigured : List Filter :=
  [{ id := 1, url := "http://a", enabled := true }, { id := 2, url := "http://b", enabled := true }]

/-- Two filters get their first contents, and one is disabled before the cycle ends. -/
def storedThenDisabled : List ServiceEvent :=
  [.cycleBegins ⟨0⟩ false, .downloadStarts 0 Faults.none, .downloadStarts 0 Faults.none,
    .downloadEnds 0 1 (.answered 200 (some (bytesOf "text/plain")) (.ok (bytesOf "a\nb"))),
    .downloadEnds 0 0 (.answered 200 (some (bytesOf "text/plain")) (.ok (bytesOf "c"))),
    .persists 0 0 Faults.none ⟨5⟩, .switches Faults.noneFor "http://b" false,
    .persists 0 1 Faults.none ⟨7⟩, .cycleEnds 0]

theorem consistent_of_storedThenDisabled :
    let registry := ((Registry.empty ⟨0⟩).withFilters twoConfigured).withUserRules []
    let start : LiveService := { service := { registry, store := { path := "cache" } } }
    (∀ f ∈ twoConfigured, f.IsBare) ∧
      (start.run storedThenDisabled).service.registry.filters.map Filter.content =
        [some (bytesOf "c"), none] ∧
      ∀ f ∈ (start.run storedThenDisabled).service.registry.filters, f.Consistent := by
  have hbare : ∀ f ∈ twoConfigured, f.IsBare := by simp [twoConfigured, Filter.IsBare]
  refine ⟨hbare, ?_, ?_⟩
  · decide +kernel
  · exact consistent_of_run_withFilters ⟨0⟩ twoConfigured hbare [] { path := "cache" } {} {}
      storedThenDisabled

end LiveService

end FilterLists
