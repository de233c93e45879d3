import FilterLists.Proofs.Refresh.Step
import FilterLists.Proofs.Registry.Deduplication
import FilterLists.Proofs.Registry.Numbering

/-! The list of subscriptions, as ids and URLs. An event gives ids to the filters that have none, or
appends a filter whose URL is not listed, or keeps some of the subscriptions as they are and in
their order. -/
namespace FilterLists

def Filter.subscription (f : Filter) : FilterId × String :=
  (f.id, f.url)

namespace Registry

theorem notMem_urls_iff {r : Registry} {url : String} :
    url ∉ r.filters.map (·.url) ↔ r.contains url = false := by
  rw [← contains_iff, Bool.not_eq_true]

theorem map_url_loadAll {load : Loader} (hload : Keeps load) (r : Registry) :
    (r.loadAll load).filters.map (·.url) = r.filters.map (·.url) := by
  rw [← map_url_assignMissing r.nextId r.filters]
  simp only [loadAll, List.map_map]
  exact List.map_congr_left (fun f _ => (loadEnabled_subscription hload f).2.1)

/-- Filters that get ids while any are left stay apart. -/
theorem nodup_subscription_assignMissing {nextId : FilterId} {filters : List Filter}
    (h : (filters.map Filter.subscription).Nodup) (hbelow : ∀ f ∈ filters, f.id < nextId)
    (hcounter : (assignMissing nextId filters).2 < Int64.maxValue) :
    ((assignMissing nextId filters).1.map Filter.subscription).Nodup := by
  induction filters generalizing nextId with
  | nil => simp [assignMissing]
  | cons f rest ih =>
    obtain ⟨hf, hrest⟩ := List.forall_mem_cons.mp hbelow
    obtain ⟨hfirst, hothers⟩ := List.nodup_cons.mp h
    unfold assignMissing at hcounter ⊢
    by_cases hzero : f.id = 0
    · simp only [hzero, if_true, List.map_cons] at hcounter ⊢
      have hlater := le_assignMissing (FilterId.next nextId) rest
      have hlt : nextId < FilterId.next nextId := FilterId.lt_next (Int64.lt_of_le_of_lt
        (Int64.le_trans (FilterId.le_next nextId) hlater) hcounter)
      have hbelow' : ∀ g ∈ rest, g.id < FilterId.next nextId := fun g hg =>
        Int64.lt_trans (hrest g hg) hlt
      refine List.nodup_cons.mpr ⟨fun hmem => ?_, ih hothers hbelow' hcounter⟩
      obtain ⟨g, hg, heq⟩ := List.mem_map.mp hmem
      have hid : g.id = nextId := congrArg Prod.fst heq
      rcases mem_assignMissing hg with ⟨hold, _⟩ | ⟨hle, _⟩
      · exact Int64.lt_irrefl (hid ▸ hrest g hold)
      · exact Int64.lt_irrefl (Int64.lt_of_lt_of_le hlt (hid ▸ hle))
    · simp only [hzero, if_false, List.map_cons] at hcounter ⊢
      refine List.nodup_cons.mpr ⟨fun hmem => ?_, ih hothers hrest hcounter⟩
      obtain ⟨g, hg, heq⟩ := List.mem_map.mp hmem
      have hid : g.id = f.id := congrArg Prod.fst heq
      rcases mem_assignMissing hg with ⟨hold, _⟩ | ⟨hle, _⟩
      · exact hfirst (heq ▸ List.mem_map_of_mem hold)
      · exact Int64.lt_irrefl (Int64.lt_of_lt_of_le hf (hid ▸ hle))

theorem map_subscription_loadAll {load : Loader} (hload : Keeps load) (r : Registry) :
    (r.loadAll load).filters.map Filter.subscription =
      (assignMissing r.nextId r.filters).1.map Filter.subscription := by
  simp only [loadAll, List.map_map]
  refine List.map_congr_left (fun f _ => ?_)
  obtain ⟨hid, hurl, _⟩ := loadEnabled_subscription hload f
  exact Prod.ext hid hurl

theorem map_subscription_merge (r : Registry) (results : List Refreshed) :
    (r.merge results).1.filters.map Filter.subscription =
      r.filters.map Filter.subscription := by
  refine map_mergeFrom (fun fresh live => ?_) r 0 results
  obtain ⟨hid, hurl, _⟩ := takeOver_subscription fresh live
  exact Prod.ext hid hurl

theorem map_subscription_setEnabled {load : Loader} (hload : Keeps load) (r : Registry)
    (url : String) (enabled : Bool) :
    (r.setEnabled load url enabled).1.filters.map Filter.subscription =
      r.filters.map Filter.subscription := by
  refine map_setEnabled (fun f => ?_) r url
  obtain ⟨hid, hurl, _⟩ := switch_subscription hload enabled f
  exact Prod.ext hid hurl

theorem map_id_loadAll {load : Loader} (hload : Keeps load) (r : Registry) :
    (r.loadAll load).filters.map (·.id) = (assignMissing r.nextId r.filters).1.map (·.id) := by
  simp only [loadAll, List.map_map]
  exact List.map_congr_left (fun f _ => (loadEnabled_subscription hload f).1)

def ofConfigured (now : Instant) (filters : List Filter) (rules : List String) : Registry :=
  (((Registry.empty now).withFilters filters).withUserRules rules).deduplicate.1

theorem ofConfigured_urls (now : Instant) (filters : List Filter) (rules : List String) :
    ((ofConfigured now filters rules).filters.map (·.url)).Nodup :=
  (nodup_firstByUrl [] filters).1

theorem ofConfigured_sublist (now : Instant) (filters : List Filter) (rules : List String) :
    (ofConfigured now filters rules).filters.Sublist filters :=
  firstByUrl_sublist [] filters

end Registry

namespace LiveService

def subscriptions (l : LiveService) : List (FilterId × String) :=
  l.service.registry.filters.map Filter.subscription

variable {l : LiveService}

theorem subscriptions_of_filters {m : LiveService}
    (h : m.service.registry.filters = l.service.registry.filters) :
    m.subscriptions = l.subscriptions :=
  congrArg (List.map Filter.subscription) h

/-- A request to add that goes on appends a filter whose URL is not listed, or leaves the list. -/
theorem filters_addProceeds (l : LiveService) (place : Nat) :
    (∃ f, l.adds[place]? = some (.appending f) ∧
      f.url ∉ l.service.registry.filters.map (·.url) ∧
      (l.step (.addProceeds place)).service.registry.filters =
        l.service.registry.filters ++ [f]) ∨
    (l.step (.addProceeds place)).service.registry.filters = l.service.registry.filters := by
  cases hrequest : l.adds[place]? with
  | none => exact .inr (by simp only [step, hrequest])
  | some request =>
    rw [(step_addProceeds hrequest).2]
    generalize hnext : request.step l.service.registry = next
    cases AddRequest.isStep hnext with
    | appends hnew => exact .inl ⟨_, rfl, Registry.notMem_urls_iff.mpr hnew, rfl⟩
    | refuses | passes | numbers | yields | rests => exact .inr rfl

theorem subscriptions_cycleEnds (l : LiveService) (place : Nat) :
    (l.step (.cycleEnds place)).subscriptions = l.subscriptions := by
  rcases l.cycleEnds_cases place with ⟨c, _, _, hservice, _⟩ | heq
  · rw [subscriptions, hservice, Cycle.registry_conclude, Registry.map_subscription_merge]
    rfl
  · rw [heq]

theorem subscriptions_removeBegins (l : LiveService) (url : String) :
    (l.step (.removeBegins url)).subscriptions.Sublist l.subscriptions := by
  simp only [step]
  rcases removeBegin_cases l.service.registry url with ⟨result, heq⟩ | ⟨f, kept, _, hsub, heq⟩
  · rw [heq]
    exact List.Sublist.refl _
  · rw [heq]
    exact hsub.map _

/-- What an event can do to the list. -/
theorem subscriptions_step (l : LiveService) (e : ServiceEvent) :
    (∃ faults, e = .loadsAll faults) ∨
    (∃ place f, e = .addProceeds place ∧ l.adds[place]? = some (.appending f) ∧
      f.url ∉ l.service.registry.filters.map (·.url) ∧
      (l.step e).service.registry.filters = l.service.registry.filters ++ [f]) ∨
    (l.step e).subscriptions.Sublist l.subscriptions := by
  have hsame : ∀ {m : LiveService}, m.service.registry.filters = l.service.registry.filters →
      m.subscriptions.Sublist l.subscriptions :=
    fun hfilters => (subscriptions_of_filters hfilters).symm ▸ List.Sublist.refl _
  cases e with
  | loadsAll faults => exact .inl ⟨faults, rfl⟩
  | addProceeds place =>
    right
    rcases l.filters_addProceeds place with ⟨f, happends⟩ | hfilters
    · exact .inl ⟨place, f, rfl, happends⟩
    · exact .inr (hsame hfilters)
  | removeBegins url => exact .inr (.inr (l.subscriptions_removeBegins url))
  | deduplicates => exact .inr (.inr (l.service.registry.deduplicate_sublist.map _))
  | cycleEnds place =>
    right; right
    rw [subscriptions_cycleEnds]
  | switches faults url enabled =>
    right; right
    have hswitched : (l.step (.switches faults url enabled)).subscriptions = l.subscriptions :=
      Registry.map_subscription_setEnabled (l.service.store.keeps_load faults) _ url enabled
    rw [hswitched]
  | downloadStarts place faults =>
    exact .inr (.inr (hsame (by rw [(l.downloadStarts_frame place faults).1])))
  | persists place ticket faults now =>
    exact .inr (.inr (hsame (by rw [(l.persists_frame place ticket faults now).1])))
  | removeProceeds place faults =>
    exact .inr (.inr (hsame (by rw [(l.removeProceeds_frame place faults).1])))
  | cycleBegins | downloadEnds | addBegins | assignsId | raisesIdFloor | setsUserRules
  | fileVanishes => exact .inr (.inr (hsame rfl))

theorem mem_subscriptions {f : Filter} (hf : f ∈ l.service.registry.filters) :
    (f.id, f.url) ∈ l.subscriptions :=
  List.mem_map_of_mem hf

theorem exists_of_mem_subscriptions {id : FilterId} {url : String}
    (h : (id, url) ∈ l.subscriptions) :
    ∃ f ∈ l.service.registry.filters, f.id = id ∧ f.url = url := by
  obtain ⟨f, hf, heq⟩ := List.mem_map.mp h
  exact ⟨f, hf, congrArg Prod.fst heq, congrArg Prod.snd heq⟩

theorem Sublist.urls {m : LiveService} (h : m.subscriptions.Sublist l.subscriptions) :
    (m.service.registry.filters.map (·.url)).Sublist (l.service.registry.filters.map (·.url)) := by
  simpa [subscriptions, Function.comp_def, Filter.subscription] using h.map Prod.snd

theorem Sublist.ids {m : LiveService} (h : m.subscriptions.Sublist l.subscriptions) :
    (m.service.registry.filters.map (·.id)).Sublist (l.service.registry.filters.map (·.id)) := by
  simpa [subscriptions, Function.comp_def, Filter.subscription] using h.map Prod.fst

theorem urls_step (h : (l.service.registry.filters.map (·.url)).Nodup) (e : ServiceEvent) :
    ((l.step e).service.registry.filters.map (·.url)).Nodup := by
  rcases l.subscriptions_step e with ⟨faults, rfl⟩ | ⟨place, f, _, _, hnew, hfilters⟩ | hsub
  · have hkept := Registry.map_url_loadAll (l.service.store.keeps_load faults) l.service.registry
    exact hkept.symm ▸ h
  · rw [hfilters, List.map_append, List.map_singleton]
    refine List.nodup_append.mpr ⟨h, List.nodup_singleton _, fun url hurl other hother => ?_⟩
    rw [List.mem_singleton.mp hother]
    exact fun heq => hnew (heq ▸ hurl)
  · exact h.sublist (Sublist.urls hsub)

end LiveService

end FilterLists
