import FilterLists.Proofs.Session.Run
import FilterLists.Proofs.Startup

/-!
The commands that edit the list, by their effect on the records that a configuration keeps. The list
at the start of a run is that of the configuration, without repeated URLs and with all ids assigned.
-/
namespace FilterLists

namespace Registry
variable {load : Loader}

theorem persisted_loadEnabled (hload : Keeps load) (f : Filter) :
    (loadEnabled load f).persisted = f.persisted := by
  unfold loadEnabled
  split
  · cases hloaded : load f with
    | error e => rfl
    | ok loaded =>
      obtain ⟨hid, hurl, hname, henabled⟩ := hload f loaded hloaded
      simp [Filter.persisted, hid, hurl, hname, henabled]
  · rfl

theorem persisted_switch (hload : Keeps load) (enabled : Bool) (f : Filter) :
    (switch load enabled f).persisted = { f.persisted with enabled } := by
  unfold switch
  cases enabled with
  | false => rfl
  | true =>
    cases hloaded : load { f with enabled := true } with
    | error e => simp [hloaded, Filter.persisted]
    | ok loaded =>
      obtain ⟨hid, hurl, hname, henabled⟩ := hload _ loaded hloaded
      simp [hloaded, Filter.persisted, hid, hurl, hname, henabled]

theorem map_persisted_assignMissing (nextId : FilterId) (filters : List Filter) :
    (assignMissing nextId filters).1.map Filter.persisted =
      (assignMissing nextId (filters.map Filter.persisted)).1 := by
  induction filters generalizing nextId with
  | nil => rfl
  | cons f rest ih =>
    rw [List.map_cons]
    unfold assignMissing
    have hid : f.persisted.id = f.id := rfl
    rw [hid]
    split
    · simp [ih, Filter.persisted]
    · simp [ih]

theorem map_persisted_loadAll (hload : Keeps load) (r : Registry) :
    (r.loadAll load).filters.map Filter.persisted =
      (assignMissing r.nextId (r.filters.map Filter.persisted)).1 := by
  rw [← map_persisted_assignMissing]
  simp only [loadAll, List.map_map]
  exact List.map_congr_left (fun f _ => persisted_loadEnabled hload f)

theorem id_mem_of_subscription_mem {filters : List Filter} {g : Filter}
    (h : g.subscription ∈ filters.map Filter.subscription) : g.id ∈ filters.map (·.id) := by
  obtain ⟨f, hf, hsame⟩ := List.mem_map.mp h
  exact List.mem_map.mpr ⟨f, hf, congrArg Prod.fst hsame⟩

end Registry

namespace Session
variable {service : Service} {url name : String} {enabled : Bool}

theorem edited_add (service : Service) (url name : String) (enabled : Bool) :
    edited service (.add url name enabled) =
      match checkSubscription url name with
      | .error e => (service, .error e)
      | .ok () =>
        if service.registry.contains url then (service, .error (.duplicateFilter url))
        else
          ({ service with registry := { service.registry with
              filters := service.registry.filters ++
                [{ id := service.registry.nextId, url, name, enabled }]
              nextId := FilterId.next service.registry.nextId } }, .ok ()) := by
  simp only [edited, Service.addFilter]
  cases checkSubscription url name with
  | error e => rfl
  | ok valid =>
    by_cases hlisted : service.registry.contains url = true
    · simp [hlisted, Except.map]
    · have hnew : ({ service.registry with nextId := FilterId.next service.registry.nextId } :
          Registry).contains url = false := by
        simpa [Registry.contains] using hlisted
      simp [hlisted, Registry.assignId, Registry.subscribe, Registry.add, hnew, Except.map]

theorem edited_remove (service : Service) (url : String) :
    edited service (.remove url) =
      match service.registry.get? url with
      | none => (service, .error (.unknownFilter url))
      | some f =>
        ({ service with
            registry := (service.registry.remove url).1
            store := (service.store.remove Faults.none f).1 }, .ok ()) := by
  simp only [edited, Service.removeFilter]
  cases hget : service.registry.get? url with
  | none => simp [Registry.remove, hget, Except.map]
  | some f => simp [Registry.remove, hget, Except.map]

theorem registry_switchFilter (service : Service) (faults : Filter → Faults) (url : String)
    (enabled : Bool) :
    (service.switchFilter faults url enabled).1.registry =
      (service.registry.setEnabled (service.loader faults) url enabled).1 := by
  unfold Service.switchFilter
  cases hswitched : service.setEnabled faults url enabled with
  | mk switched found =>
    have hregistry := congrArg (fun result => result.1.registry) hswitched
    cases found <;> exact hregistry.symm

theorem switchFilter_eq (service : Service) (url : String) (enabled : Bool) :
    service.switchFilter Faults.noneFor url enabled =
      if service.registry.contains url then
        ({ service with registry := { service.registry with
            filters := Registry.modifyFirst (fun f => f.url = url)
              (Registry.switch (service.loader Faults.noneFor) enabled)
              service.registry.filters } }, .ok ())
      else (service, .error (.unknownFilter url)) := by
  by_cases hlisted : service.registry.contains url = true
  · simp [Service.switchFilter, Service.setEnabled, Registry.setEnabled, hlisted]
  · simp [Service.switchFilter, Service.setEnabled, Registry.setEnabled, hlisted]

/-- How many ids a command needs for new subscriptions. -/
def newIds : Command → Nat
  | .add .. => 1
  | _ => 0

/-- A command keeps subscriptions in their order, or appends one with the id that the counter is at
and a URL that is not listed. -/
theorem subscriptions_edited (service : Service) (command : Command) :
    let before := service.registry.filters.map Filter.subscription
    let after := (edited service command).1.registry.filters.map Filter.subscription
    after.Sublist before ∨ newIds command = 1 ∧
      ∃ url, service.registry.contains url = false ∧
        after = before ++ [(service.registry.nextId, url)] := by
  intro before after
  have hload : Registry.Keeps (service.loader Faults.noneFor) :=
    service.store.keeps_load (fun _ => Faults.none)
  have hswitch : ∀ url enabled,
      ((service.switchFilter Faults.noneFor url enabled).1.registry.filters.map
        Filter.subscription).Sublist before := by
    intro url enabled
    rw [registry_switchFilter, Registry.map_subscription_setEnabled hload]
  cases command with
  | add url name enabled =>
    simp only [after, edited_add]
    split
    · exact .inl (List.Sublist.refl _)
    · split
      · exact .inl (List.Sublist.refl _)
      · next hnew =>
        refine .inr ⟨rfl, url, by simpa using hnew, ?_⟩
        rw [List.map_append]
        rfl
  | remove url =>
    simp only [after, edited_remove]
    split
    · exact .inl (List.Sublist.refl _)
    · exact .inl ((Registry.remove_sublist service.registry url).map _)
  | enable url => exact .inl (hswitch url true)
  | disable url => exact .inl (hswitch url false)
  | run | refresh | list => exact .inl (List.Sublist.refl _)

/-- After a command, a subscription was there before or is new, with the id that the counter was
at. -/
theorem mem_edited (service : Service) (command : Command) {g : Filter}
    (hg : g ∈ (edited service command).1.registry.filters) :
    g.subscription ∈ service.registry.filters.map Filter.subscription ∨
      newIds command = 1 ∧ g.id = service.registry.nextId ∧
        service.registry.contains g.url = false := by
  have hafter := List.mem_map_of_mem (f := Filter.subscription) hg
  rcases subscriptions_edited service command with hkept | ⟨hcommand, url, hnew, happended⟩
  · exact .inl (hkept.subset hafter)
  · rw [happended] at hafter
    rcases List.mem_append.mp hafter with hold | hlast
    · exact .inl hold
    · have hsame := List.mem_singleton.mp hlast
      have hurl : g.url = url := congrArg Prod.snd hsame
      exact .inr ⟨hcommand, congrArg Prod.fst hsame, hurl ▸ hnew⟩

end Session

end FilterLists
