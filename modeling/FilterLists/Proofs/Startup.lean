import FilterLists.Proofs.Compilation
import FilterLists.Proofs.Refresh.Script
import FilterLists.Proofs.Subscriptions
import FilterLists.Session

/-! What a validated configuration is good for. Its filters start with ids above zero. The ids are
distinct just if those in the configuration are, apart from the filters that have the URL of an
earlier one, and there are enough for the filters without an id. Then the engine starts, and no
refresh can make it reject the filters. -/
namespace FilterLists

namespace Config

theorem ids_of_validate {config : Config} (h : config.validate = .ok ()) :
    ∀ f ∈ config.filtering.filters, 0 ≤ f.id ∧ f.id < Int64.maxValue := by
  have hnone : config.filtering.filters.find? isInvalidId = none := by
    cases hfind : config.filtering.filters.find? isInvalidId with
    | none => rfl
    | some bad =>
      simp only [validate, hfind] at h
      split_ifs at h
  intro f hf
  have hvalid := List.find?_eq_none.mp hnone f hf
  simp only [isInvalidId, Bool.or_eq_true, decide_eq_true_eq, not_or] at hvalid
  exact ⟨Int64.not_lt.mp hvalid.1,
    Int64.lt_of_le_of_ne (Int64.le_maxValue f.id) hvalid.2⟩

end Config

namespace Registry
variable {now : Instant} {configured : List Filter} {rules : List String} {load : Loader}

theorem pos_loadAll_ofConfigured (hload : Keeps load) (hnow : now.seconds ≤ Int64.maxValue.toInt)
    (hnonneg : ∀ f ∈ configured, 0 ≤ f.id) :
    ∀ id ∈ ((ofConfigured now configured rules).loadAll load).filters.map (·.id), 0 < id := by
  have hcounter : 0 < (ofConfigured now configured rules).nextId :=
    Int64.lt_of_lt_of_le (pos_nextId_empty hnow) (le_raised _ configured)
  rw [map_id_loadAll hload]
  refine List.forall_mem_map.mpr (fun f hf => ?_)
  rcases mem_assignMissing hf with ⟨hold, hne⟩ | ⟨hle, _⟩
  · have hconfigured := (ofConfigured_sublist now configured rules).subset hold
    exact Int64.lt_of_le_of_ne (hnonneg f hconfigured) (Ne.symm hne)
  · exact Int64.lt_of_lt_of_le hcounter hle

theorem nodup_loadAll_ofConfigured_iff (hload : Keeps load)
    (hbelow : ∀ f ∈ configured, f.id < Int64.maxValue) :
    let kept := ofConfigured now configured rules
    ((kept.loadAll load).filters.map (·.id)).Nodup ↔
      ((kept.filters.map (·.id)).filter (· ≠ 0)).Nodup ∧ HasRoom kept.nextId kept.filters := by
  intro kept
  rw [map_id_loadAll hload]
  refine nodup_assignMissing_iff (fun f hf => ?_)
  have hconfigured := (ofConfigured_sublist now configured rules).subset hf
  exact lt_raised_of_lt hconfigured (hbelow f hconfigured)

end Registry

namespace LiveService
variable {l : LiveService}

/-- The engine has accepted the filters whenever it was asked, and can rely on their ids. -/
structure Accepted (l : LiveService) : Prop where
  positive : ∀ id ∈ l.service.registry.filters.map (·.id), 0 < id
  distinct : (l.service.registry.filters.map (·.id)).Nodup
  adds : l.adds = []
  ended : ∀ result ∈ l.ended, ∃ n, result = .ok n

theorem adds_eq_nil_step (h : l.adds = []) {e : ServiceEvent}
    (he : ∀ url name enabled, e ≠ .addBegins url name enabled) : (l.step e).adds = [] := by
  cases e with
  | addBegins url name enabled => exact absurd rfl (he url name enabled)
  | addProceeds place => simp [step, h]
  | cycleEnds place =>
    rcases l.cycleEnds_cases place with ⟨_, _, _, _, _, _, hadds, _⟩ | heq
    · rw [hadds, h]
    · rw [heq, h]
  | downloadStarts place faults => rw [(l.downloadStarts_frame place faults).2.1, h]
  | persists place ticket faults now => rw [(l.persists_frame place ticket faults now).2.1, h]
  | removeProceeds place faults => rw [(l.removeProceeds_frame place faults).2.2, h]
  | cycleBegins | downloadEnds | removeBegins | switches | loadsAll | deduplicates | assignsId
  | raisesIdFloor | setsUserRules | fileVanishes => exact h

/-- Without new filters no id is new, since there is none to be given. -/
theorem sublist_ids_step (hids : ∀ f ∈ l.service.registry.filters, f.id ≠ 0) (hadds : l.adds = [])
    (e : ServiceEvent) : ((l.step e).service.registry.filters.map (·.id)).Sublist
      (l.service.registry.filters.map (·.id)) := by
  rcases l.subscriptions_step e with ⟨faults, rfl⟩ | ⟨place, f, _, hplace, _⟩ | hsub
  · have hsame := Registry.map_id_loadAll (l.service.store.keeps_load faults) l.service.registry
    rw [Registry.assignMissing_of_ne_zero hids] at hsame
    exact hsame.symm ▸ List.Sublist.refl _
  · simp [hadds] at hplace
  · simpa [subscriptions, Filter.subscription, Function.comp_def] using hsub.map Prod.fst

/-- The results of a cycle leave the ids alone, so the engine accepts the filters after the merge
as well. -/
theorem Accepted.conclude (h : l.Accepted) (c : Cycle) :
    ∃ n, (c.conclude l.service).2 = .ok n := by
  have hids := l.service.registry.map_id_merge c.results
  obtain ⟨rules, hrules⟩ := RuleSet.exists_ofRegistry (hids ▸ h.distinct) (hids ▸ h.positive)
  rw [Cycle.conclude]
  rcases Refresh.conclude_cases l.service c.results with ⟨_, _, heq⟩ | ⟨e, hrejected, _⟩ | ⟨_, heq⟩
  · exact ⟨_, congrArg Prod.snd heq⟩
  · cases hrules.symm.trans hrejected
  · exact ⟨_, congrArg Prod.snd heq⟩

theorem Accepted.ended_step (h : l.Accepted) (e : ServiceEvent) :
    ∀ result ∈ (l.step e).ended, ∃ n, result = .ok n := by
  cases e with
  | cycleEnds place =>
    rcases l.cycleEnds_cases place with ⟨c, _, _, _, _, hended, _⟩ | heq
    · rw [hended]
      exact List.forall_mem_cons.mpr ⟨h.conclude c, h.ended⟩
    · rw [heq]
      exact h.ended
  | downloadStarts | persists | addProceeds | removeProceeds =>
    simp only [step]
    split <;> exact h.ended
  | cycleBegins | downloadEnds | addBegins | removeBegins | switches | loadsAll | deduplicates
  | assignsId | raisesIdFloor | setsUserRules | fileVanishes => exact h.ended

theorem step_accepted (h : l.Accepted) {e : ServiceEvent}
    (he : ∀ url name enabled, e ≠ .addBegins url name enabled) : (l.step e).Accepted := by
  have hids : ∀ f ∈ l.service.registry.filters, f.id ≠ 0 := fun f hf =>
    Ne.symm (Int64.ne_of_lt (h.positive f.id (List.mem_map_of_mem hf)))
  have hsub := sublist_ids_step hids h.adds e
  exact ⟨fun id hid => h.positive id (hsub.subset hid), h.distinct.sublist hsub,
    adds_eq_nil_step h.adds he, h.ended_step e⟩

theorem run_accepted (h : l.Accepted) {events : List ServiceEvent}
    (hevents : ∀ url name enabled, .addBegins url name enabled ∉ events) :
    (l.run events).Accepted := by
  induction events generalizing l with
  | nil => exact h
  | cons e rest ih =>
    rw [run_cons]
    refine ih (step_accepted h (fun url name enabled heq => ?_)) (fun url name enabled hmem => ?_)
    · exact hevents url name enabled (heq ▸ List.mem_cons_self)
    · exact hevents url name enabled (List.mem_cons_of_mem e hmem)

/-- Whatever a validated configuration and the cache contain: all filters start with ids above zero,
which are distinct just if the configured ids of the filters that remain are distinct and the others
find enough ids from the counter on. With distinct ids the engine starts, and no cycle that ends
later has its filters rejected, as long as no filter is added. -/
theorem starts_of_validate (config : Config) (hvalid : config.validate = .ok ()) (now : Instant)
    (hnow : now.seconds ≤ Int64.maxValue.toInt) (store : Store) (faults : Filter → Faults)
    (policy : RefreshPolicy) (events : List ServiceEvent)
    (hevents : ∀ url name enabled, .addBegins url name enabled ∉ events) :
    let kept := Registry.ofConfigured now config.filtering.filters config.filtering.userRules
    let registry := Session.startRegistry config.filtering now (fun f => store.load (faults f) f)
    let started := Service.startEngine { registry, store }
    (∀ f ∈ registry.filters, 0 < f.id) ∧
      ((registry.filters.map (·.id)).Nodup ↔ ((kept.filters.map (·.id)).filter (· ≠ 0)).Nodup ∧
        Registry.HasRoom kept.nextId kept.filters) ∧
      ((registry.filters.map (·.id)).Nodup → started.2 = .ok () ∧
        ∀ result ∈ (LiveService.run { service := started.1, policy } events).ended,
          ∃ n, result = .ok n) := by
  intro kept registry started
  have hids := Config.ids_of_validate hvalid
  have hload : Registry.Keeps (fun f => store.load (faults f) f) := store.keeps_load faults
  have hpositive : ∀ id ∈ registry.filters.map (·.id), 0 < id :=
    Registry.pos_loadAll_ofConfigured hload hnow (fun f hf => (hids f hf).1)
  refine ⟨List.forall_mem_map.mp hpositive, ?_, fun hdistinct => ⟨Service.startEngine_ok hdistinct hpositive, ?_⟩⟩
  · exact Registry.nodup_loadAll_ofConfigured_iff hload (fun f hf => (hids f hf).2)
  · have hstart : LiveService.Accepted { service := started.1, policy } :=
      ⟨hpositive, hdistinct, rfl, fun result hresult => absurd hresult List.not_mem_nil⟩
    exact (run_accepted hstart hevents).ended

def configWith (ids : List FilterId) : Config :=
  { filtering :=
      { filters := ids.mapIdx (fun i id => { id, url := s!"http://{i}", enabled := true }) } }

def cacheWith (ids : List FilterId) : Store :=
  let file := fun id => (Store.fileName id, Node.file (bytesOf "a") ⟨0⟩)
  { path := "cache", place := some (.directory (ids.map file) ⟨0⟩) }

def serviceOf (config : Config) (store : Store) : Service × Except Error Unit :=
  let registry := Session.startRegistry config.filtering ⟨0⟩ (fun f => store.load Faults.none f)
  Service.startEngine { registry, store }

def twoDownloads : List ServiceEvent :=
  [.cycleBegins ⟨0⟩ true, .downloadStarts 0 Faults.none, .downloadStarts 0 Faults.none,
    .downloadEnds 0 0 (.plainText "b"), .persists 0 0 Faults.none ⟨0⟩,
    .downloadEnds 0 1 (.plainText "c"), .persists 0 1 Faults.none ⟨0⟩, .cycleEnds 0]

theorem starts_of_numberedAndNew :
    let started := serviceOf (configWith [7, 0]) (cacheWith [7])
    (configWith [7, 0]).validate = .ok () ∧
      started.1.registry.filters.map (·.id) = [7, 8] ∧ started.2 = .ok () ∧
      (LiveService.run { service := started.1 } twoDownloads).ended = [.ok 2] ∧
      ∀ result ∈ (LiveService.run { service := started.1 } twoDownloads).ended,
        ∃ n, result = .ok n := by
  have hvalid : (configWith [7, 0]).validate = .ok () := by decide +kernel
  have hevents : ∀ url name enabled, .addBegins url name enabled ∉ twoDownloads := by
    simp [twoDownloads]
  obtain ⟨_, hiff, hstarts⟩ := starts_of_validate (configWith [7, 0]) hvalid ⟨0⟩ (by decide)
    (cacheWith [7]) (fun _ => Faults.none) {} twoDownloads hevents
  obtain ⟨hstarted, hended⟩ := hstarts (hiff.mpr (by decide +kernel))
  exact ⟨hvalid, by decide +kernel, hstarted, by decide +kernel, hended⟩

/-- Two lists have no id yet, and after that of the first list there is only one. -/
def oneIdLeft : Config :=
  configWith [Int64.maxValue - 1, 0, 0]

/-- A valid configuration can have an id twice, or an id so high that too few are left for the
filters without one. The engine rejects it at the start if the cache has the contents, and else
after the first cycle. -/
theorem not_starts_of_sharedId :
    ((configWith [7, 7]).validate = .ok () ∧
      (serviceOf (configWith [7, 7]) (cacheWith [7])).2 = .error (.duplicateId 7) ∧
      (serviceOf (configWith [7, 7]) (cacheWith [])).2 = .ok () ∧
      (LiveService.run { service := (serviceOf (configWith [7, 7]) (cacheWith [])).1 }
        twoDownloads).ended = [.error (.duplicateId 7)]) ∧
    (oneIdLeft.validate = .ok () ∧
      (serviceOf oneIdLeft (cacheWith [Int64.maxValue])).1.registry.filters.map (·.id) =
        [Int64.maxValue - 1, Int64.maxValue, Int64.maxValue] ∧
      (serviceOf oneIdLeft (cacheWith [Int64.maxValue])).2 =
        .error (.duplicateId Int64.maxValue)) := by
  refine ⟨⟨?_, ?_, ?_, ?_⟩, ?_, ?_, ?_⟩ <;> decide +kernel

end LiveService

end FilterLists
