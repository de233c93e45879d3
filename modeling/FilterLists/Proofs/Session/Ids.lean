import FilterLists.Proofs.Session.Saving
import FilterLists.Proofs.Startup

/-!
The ids in a list from one run to the next. A subscription that has an id keeps it. As long as the
ids stay below the last one, the others get ids that no subscription has, the first time that the
list is saved.
-/
namespace FilterLists

namespace Registry
variable {nextId : FilterId} {filters : List Filter}

/-- Subscriptions that have ids keep them, and the others get new ones. -/
structure Numbers (before after : List Filter) : Prop where
  kept : ∀ f ∈ firstByUrl [] before, f.id ≠ 0 → ∀ g ∈ after, g.url = f.url → g.id = f.id
  fresh : ∀ g ∈ after, ∀ f ∈ before, g.id = f.id → g.url = f.url
  positive : ∀ g ∈ after, 0 < g.id
  distinct : (after.map (·.id)).Nodup

theorem Numbers.map_persisted {before after : List Filter} (h : Numbers before after) :
    Numbers before (after.map Filter.persisted) := by
  refine ⟨fun f hf hne => ?_, ?_, ?_, ?_⟩
  · exact List.forall_mem_map.mpr (h.kept f hf hne)
  · exact List.forall_mem_map.mpr h.fresh
  · exact List.forall_mem_map.mpr h.positive
  · rw [List.map_map]
    exact h.distinct

theorem mem_assignMissing_of_ne_zero {f : Filter} (hf : f ∈ filters) (hne : f.id ≠ 0) :
    f ∈ (assignMissing nextId filters).1 := by
  induction filters generalizing nextId with
  | nil => cases hf
  | cons first rest ih =>
    unfold assignMissing
    rcases List.mem_cons.mp hf with rfl | hrest
    · simp [hne]
    · split
      · exact List.mem_cons_of_mem _ (ih hrest)
      · exact List.mem_cons_of_mem _ (ih hrest)

/-- A raised counter is one above the highest id at most. -/
theorem toInt_raised_le {highest : Int} (hlast : highest < Int64.maxValue.toInt)
    (hcounter : nextId.toInt ≤ highest + 1) (hids : ∀ f ∈ filters, f.id.toInt ≤ highest) :
    (raised nextId filters).toInt ≤ highest + 1 := by
  unfold raised
  induction filters generalizing nextId with
  | nil => exact hcounter
  | cons f rest ih =>
    obtain ⟨hf, hrest⟩ := List.forall_mem_cons.mp hids
    rw [List.foldl_cons]
    refine ih ?_ hrest
    split
    · have hlt : f.id < Int64.maxValue := Int64.lt_iff_toInt_lt.mpr (by omega)
      rw [FilterId.toInt_next (Int64.ne_of_lt hlt)]
      omega
    · exact hcounter

theorem pos_nextId_loadAll {now : Instant} (h : now.seconds ≤ Int64.maxValue.toInt)
    (filters : List Filter) (rules : List String) (load : Loader) :
    0 < ((ofConfigured now filters rules).loadAll load).nextId := by
  have hcounter : 0 < (ofConfigured now filters rules).nextId :=
    Int64.lt_of_lt_of_le (pos_nextId_empty h) (le_raised _ filters)
  exact Int64.lt_of_lt_of_le hcounter (le_assignMissing _ _)

end Registry

namespace Session

open Registry (Numbers)

/-- There are ids for the subscriptions without one and for a number of more, above those that are
taken and above the time. -/
def HasIdsLeft (ceiling : Nat) (filters : List Filter) (more : Nat) : Prop :=
  ∃ highest : Nat, ceiling ≤ highest ∧ (∀ f ∈ filters, f.id.toInt ≤ highest) ∧
    highest + filters.countP (fun f => f.id = 0) + more < Int64.maxValue.toInt

theorem HasIdsLeft.mono {ceiling more fewer : Nat} {filters : List Filter}
    (h : HasIdsLeft ceiling filters more) (hle : fewer ≤ more) : HasIdsLeft ceiling filters fewer := by
  obtain ⟨highest, hceiling, hids, hroom⟩ := h
  exact ⟨highest, hceiling, hids, by omega⟩

theorem HasIdsLeft.map_persisted {ceiling more : Nat} {filters : List Filter}
    (h : HasIdsLeft ceiling filters more) :
    HasIdsLeft ceiling (filters.map Filter.persisted) more := by
  obtain ⟨highest, hceiling, hids, hroom⟩ := h
  refine ⟨highest, hceiling, List.forall_mem_map.mpr hids, ?_⟩
  rw [List.countP_map]
  exact hroom

variable {now : Instant} {filters : List Filter} {rules : List String} {load : Loader}
  {ceiling more highest : Nat}

/-- The counter of a run, when the configured subscriptions have their ids. -/
theorem toInt_nextId_loadAll_le (hnow : now.seconds ≤ highest)
    (hids : ∀ f ∈ filters, f.id.toInt ≤ highest)
    (hroom : highest + filters.countP (fun f => f.id = 0) + 1 < Int64.maxValue.toInt) :
    ((Registry.ofConfigured now filters rules).loadAll load).nextId.toInt ≤
      highest + filters.countP (fun f => f.id = 0) + 1 := by
  have hseed : (Registry.empty now).nextId.toInt = _ := Registry.toInt_nextId_empty (by omega)
  have hcounter : (Registry.ofConfigured now filters rules).nextId.toInt ≤ highest + 1 :=
    Registry.toInt_raised_le (by omega) (by omega) hids
  have hfewer : (Registry.ofConfigured now filters rules).filters.countP (fun f => f.id = 0) ≤
      filters.countP (fun f => f.id = 0) := (Registry.ofConfigured_sublist _ _ _).countP_le
  rw [show ((Registry.ofConfigured now filters rules).loadAll load).nextId.toInt = _ from
    Registry.toInt_assignMissing _ _]
  omega

variable {service : Service}

/-- The ids in a run are positive and distinct, below the counter. -/
theorem ids_loadAll_ofConfigured (rules : List String) (hload : Registry.Keeps load)
    (hnow : now.seconds ≤ ceiling) (hvalid : ∀ f ∈ filters, 0 ≤ f.id ∧ f.id < Int64.maxValue)
    (hdistinct : ((filters.map (·.id)).filter (· ≠ 0)).Nodup)
    (hleft : HasIdsLeft ceiling filters (more + 1)) :
    let registry := (Registry.ofConfigured now filters rules).loadAll load
    (∀ id ∈ registry.filters.map (·.id), 0 < id ∧ id < registry.nextId) ∧
      (registry.filters.map (·.id)).Nodup ∧ registry.nextId < Int64.maxValue := by
  intro registry
  obtain ⟨highest, hceiling, hids, hroom⟩ := hleft
  have hsub := Registry.ofConfigured_sublist now filters rules
  have hcounter : registry.nextId < Int64.maxValue := by
    have hle : registry.nextId.toInt ≤ _ := toInt_nextId_loadAll_le (by omega) hids (by omega)
    exact Int64.lt_iff_toInt_lt.mpr (by omega)
  have hpositive : ∀ id ∈ registry.filters.map (·.id), 0 < id :=
    Registry.pos_loadAll_ofConfigured hload (by omega) (fun f hf => (hvalid f hf).1)
  have hbelow : ∀ f ∈ (Registry.ofConfigured now filters rules).filters,
      f.id < (Registry.ofConfigured now filters rules).nextId := fun f hf =>
    Registry.lt_raised_of_lt (hsub.subset hf) (hvalid f (hsub.subset hf)).2
  refine ⟨fun id hid => ⟨hpositive id hid, ?_⟩, ?_, hcounter⟩
  · rw [Registry.map_id_loadAll hload] at hid
    obtain ⟨g, hg, rfl⟩ := List.mem_map.mp hid
    exact Registry.lt_assignMissing hbelow hcounter g hg
  · refine (Registry.nodup_loadAll_ofConfigured_iff hload (fun f hf => (hvalid f hf).2)).mpr ⟨?_, ?_⟩
    · exact hdistinct.sublist ((hsub.map _).filter _)
    · exact Registry.hasRoom_of_lt hcounter

/-- A subscription has in the registry of a run the id that it has in the configuration. -/
theorem id_eq_of_kept (now : Instant) (rules : List String) (hload : Registry.Keeps load)
    {f : Filter} (hf : f ∈ Registry.firstByUrl [] filters) (hne : f.id ≠ 0) :
    let registry := (Registry.ofConfigured now filters rules).loadAll load
    f.url ∈ registry.filters.map (·.url) ∧
      ∀ g : Filter, g.subscription ∈ registry.filters.map Filter.subscription → g.url = f.url →
        g.id = f.id := by
  intro registry
  have hsubscriptions := Registry.map_subscription_loadAll hload
    (Registry.ofConfigured now filters rules)
  have hthere : f.subscription ∈ registry.filters.map Filter.subscription := by
    rw [hsubscriptions]
    exact List.mem_map_of_mem (Registry.mem_assignMissing_of_ne_zero hf hne)
  have hurls : ((registry.filters.map Filter.subscription).map Prod.snd).Nodup := by
    have hnodup := Registry.ofConfigured_urls now filters rules
    rw [← Registry.map_url_loadAll hload] at hnodup
    rwa [List.map_map]
  refine ⟨?_, fun g hg hurl => ?_⟩
  · obtain ⟨h, hh, hsame⟩ := List.mem_map.mp hthere
    exact List.mem_map.mpr ⟨h, hh, congrArg Prod.snd hsame⟩
  · exact congrArg Prod.fst (List.inj_on_of_nodup_map hurls hg hthere hurl)

theorem url_eq_of_id_eq (hload : Registry.Keeps load)
    (hvalid : ∀ f ∈ filters, 0 ≤ f.id ∧ f.id < Int64.maxValue)
    (hdistinct : ((filters.map (·.id)).filter (· ≠ 0)).Nodup) {f g : Filter} (hf : f ∈ filters)
    (hg : g.subscription ∈ ((Registry.ofConfigured now filters rules).loadAll load).filters.map
      Filter.subscription) (hid : g.id = f.id) : g.url = f.url := by
  rw [Registry.map_subscription_loadAll hload] at hg
  obtain ⟨h, hh, hsame⟩ := List.mem_map.mp hg
  have hurl : h.url = g.url := congrArg Prod.snd hsame
  have hid' : h.id = f.id := (congrArg Prod.fst hsame).trans hid
  rcases Registry.mem_assignMissing hh with ⟨hold, hne⟩ | ⟨hle, -⟩
  · have hconfigured := (Registry.ofConfigured_sublist now filters rules).subset hold
    have hne' : f.id ≠ 0 := hid' ▸ hne
    rw [List.filter_map] at hdistinct
    have hsame := List.inj_on_of_nodup_map hdistinct
      (List.mem_filter.mpr ⟨hconfigured, decide_eq_true hne⟩)
      (List.mem_filter.mpr ⟨hf, decide_eq_true hne'⟩) hid'
    rw [← hurl, hsame]
  · have hlt : f.id < h.id :=
      Int64.lt_of_lt_of_le (Registry.lt_raised_of_lt hf (hvalid f hf).2) hle
    exact absurd hid' (Ne.symm (Int64.ne_of_lt hlt))

theorem map_id_eq (filters : List Filter) :
    filters.map (·.id) = (filters.map Filter.subscription).map Prod.fst := by
  rw [List.map_map]
  rfl

theorem ids_edited_le (hpositive : 0 < service.registry.nextId)
    (hids : ∀ id ∈ service.registry.filters.map (·.id), 0 < id ∧ id < service.registry.nextId)
    (command : Command) : ∀ g ∈ (edited service command).1.registry.filters,
      0 < g.id ∧ g.id ≤ service.registry.nextId := by
  intro g hg
  rcases mem_edited service command hg with hold | ⟨-, hid, -⟩
  · have hlow := hids g.id (Registry.id_mem_of_subscription_mem hold)
    exact ⟨hlow.1, Int64.le_of_lt hlow.2⟩
  · rw [hid]
    exact ⟨hpositive, Int64.le_refl _⟩

theorem nodup_ids_edited
    (hids : ∀ id ∈ service.registry.filters.map (·.id), 0 < id ∧ id < service.registry.nextId)
    (hnodup : (service.registry.filters.map (·.id)).Nodup) (command : Command) :
    ((edited service command).1.registry.filters.map (·.id)).Nodup := by
  rw [map_id_eq] at hnodup ⊢
  rcases subscriptions_edited service command with hkept | ⟨-, url, -, happended⟩
  · exact hnodup.sublist (hkept.map _)
  · rw [happended, List.map_append, List.nodup_append]
    refine ⟨hnodup, by simp, fun id hid other hother heq => ?_⟩
    have hnext : other = service.registry.nextId := List.mem_singleton.mp hother
    rw [← map_id_eq] at hid
    exact Int64.lt_irrefl (hnext ▸ heq ▸ (hids id hid).2)

/-- Where all subscriptions have their ids, only the ids above them are to be left. -/
theorem hasIdsLeft_of_le {ceiling more : Nat} (highest : Nat) (hceiling : ceiling ≤ highest)
    (hpositive : ∀ f ∈ filters, 0 < f.id) (hids : ∀ f ∈ filters, f.id.toInt ≤ highest)
    (hroom : highest + more < Int64.maxValue.toInt) : HasIdsLeft ceiling filters more := by
  have hnone : filters.countP (fun f => f.id = 0) = 0 :=
    List.countP_eq_zero.mpr fun f hf hzero =>
      Int64.ne_of_lt (hpositive f hf) (of_decide_eq_true hzero).symm
  refine ⟨highest, hceiling, hids, ?_⟩
  rw [hnone]
  simpa using hroom

/-- A command leaves the subscriptions with their ids, gives ids that are new to the others, and
leaves ids for later ones. -/
theorem numbers_edited (hload : Registry.Keeps load) (hnow : now.seconds ≤ ceiling)
    (hvalid : ∀ f ∈ filters, 0 ≤ f.id ∧ f.id < Int64.maxValue)
    (hdistinct : ((filters.map (·.id)).filter (· ≠ 0)).Nodup)
    (hleft : HasIdsLeft ceiling filters (more + 1))
    (hservice : service.registry = (Registry.ofConfigured now filters rules).loadAll load)
    (command : Command) :
    Numbers filters (edited service command).1.registry.filters ∧
      HasIdsLeft ceiling (edited service command).1.registry.filters more := by
  obtain ⟨hids, hnodup, hcounter⟩ := ids_loadAll_ofConfigured rules hload hnow hvalid hdistinct
    hleft
  rw [← hservice] at hids hnodup hcounter
  have hcounter' : ∀ f ∈ filters, f.id < service.registry.nextId := fun f hf => by
    rw [hservice]
    exact Int64.lt_of_lt_of_le (Registry.lt_raised_of_lt hf (hvalid f hf).2)
      (Registry.le_assignMissing _ _)
  obtain ⟨highest, hceiling, hhighest, hroom⟩ := hleft
  have hpositive : 0 < service.registry.nextId :=
    hservice ▸ Registry.pos_nextId_loadAll (by omega) filters rules load
  -- each subscription without an id has used up one of those that are left
  have hbound : service.registry.nextId.toInt ≤
      highest + filters.countP (fun f => f.id = 0) + 1 :=
    hservice ▸ toInt_nextId_loadAll_le (by omega) hhighest (by omega)
  have hbounds := ids_edited_le hpositive hids command
  refine ⟨⟨fun f hf hne g hg hurl => ?_, fun g hg f hf hid => ?_, fun g hg => (hbounds g hg).1,
    nodup_ids_edited hids hnodup command⟩, ?_⟩
  · obtain ⟨hlisted, hsame⟩ := id_eq_of_kept now rules hload hf hne
    rw [← hservice] at hlisted hsame
    rcases mem_edited service command hg with hold | ⟨-, -, hnew⟩
    · exact hsame g hold hurl
    · rw [hurl] at hnew
      exact absurd hlisted (Registry.notMem_urls_iff.mpr hnew)
  · rcases mem_edited service command hg with hold | ⟨-, hnew, -⟩
    · rw [hservice] at hold
      exact url_eq_of_id_eq hload hvalid hdistinct hf hold hid
    · exact absurd (hid.symm.trans hnew) (Int64.ne_of_lt (hcounter' f hf))
  · have hle : ∀ g ∈ (edited service command).1.registry.filters,
        g.id.toInt ≤ highest + filters.countP (fun f => f.id = 0) + 1 := fun g hg =>
      (Int64.le_iff_toInt_le.mp (hbounds g hg).2).trans hbound
    refine hasIdsLeft_of_le (highest + filters.countP (fun f => f.id = 0) + 1) (by omega)
      (fun g hg => (hbounds g hg).1) (fun g hg => ?_) ?_
    · simpa using hle g hg
    · push_cast
      omega

end Session

end FilterLists
