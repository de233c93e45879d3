import FilterLists.Proofs.Config.Validity
import FilterLists.Proofs.Session.Saving

/-!
When a run gets as far as its command: the file holds a valid configuration, the cache directory can
be made, the client accepts the user agent, and the engine starts since no two ids are the same.
Then a command that changes the list has the file saved, unless it has deleted the file.
-/
namespace FilterLists.Session

variable {setting : Setting} {i : Invocation} {tree : FileTree} {c : Config}

theorem configuration_of_stored (hstored : Config.IsStored tree i.configPath c)
    (hvalid : c.validate = .ok ()) (htick : ∀ tick ∈ i.overrides.refreshTickSecs, tick ≠ 0) :
    configuration tree i = .ok (c.applyOverrides i.overrides) := by
  rw [configuration, Config.load_overrides, hstored.loads]
  simp only [Except.map, Config.validate_applyOverrides hvalid htick]

theorem exists_openedService
    (hmade : (tree.ensurePath (c.filtering.storageDir i.workDir) setting.now).2 = .ok ())
    (hclient : ∃ client, Client.withUserAgent c.filtering.userAgent = .ok client)
    (hdistinct : ((idleService setting i c tree).registry.filters.map (·.id)).Nodup)
    (hpositive : ∀ id ∈ (idleService setting i c tree).registry.filters.map (·.id), 0 < id) :
    ∃ service, openedService setting i c tree = .ok service := by
  obtain ⟨client, hclient⟩ := hclient
  simp only [openedService, hmade, hclient, Service.startEngine_ok hdistinct hpositive]
  split
  · exact ⟨_, rfl⟩
  · exact ⟨_, rfl⟩

/-- A configuration file is not one of the cached files. -/
def IsApart (tree : FileTree) (configPath cachePath : String) : Prop :=
  ∀ id, tree.chainOf configPath ≠ tree.chainOf cachePath ++ [Store.fileName id]

/-- A command leaves the directories and a configuration file apart from the cache. -/
theorem kept_of_apart {service changed : Service} {answer : Except Error Unit}
    (hstored : Config.IsStored tree i.configPath c)
    (hapart : IsApart tree i.configPath (c.filtering.storageDir i.workDir))
    (hopened : openedService setting i (c.applyOverrides i.overrides) tree = .ok service)
    (hedited : edited service i.command = (changed, answer)) :
    let after := editedTree (withCache setting i (c.applyOverrides i.overrides) tree) changed i.command
    Config.IsStored after i.configPath c ∧ after.working = tree.working ∧
      after.HasDirectory (c.filtering.storageDir i.workDir) := by
  intro after
  obtain ⟨hsees, hpath⟩ := sees_of_openedService hopened
  obtain ⟨hmade, -⟩ := openedService_eq_ok hopened
  have hgrown := grown_withCache setting i (c.applyOverrides i.overrides) tree
  have hthere := hstored.of_preserves hgrown.working hgrown.preserves (by simp)
  obtain ⟨lost, hkept⟩ := exists_cacheKept hsees i.command
  rw [hedited] at hkept
  refine ⟨?_, hkept.working.trans hgrown.working,
    (FileTree.hasDirectory_of_ensurePath hmade).of_preserves hkept.working hkept.preserves⟩
  rcases hkept.stored hthere with hstays | ⟨⟨id, hid⟩, -⟩
  · exact hstays
  · rw [hpath, FileTree.chainOf_congr hgrown.working, FileTree.chainOf_congr hgrown.working] at hid
    exact absurd hid (hapart id)

theorem result_saveConfig_of_stored (setting : Setting) (service : Service) {s : SessionState}
    (hstored : Config.IsStored s.tree i.configPath c) :
    ∃ saved, result (saveConfig setting i service) s = (.ok (), { s with tree := saved }) ∧
      Config.IsStored saved i.configPath (c.withFilters service.registry.filters).persisted ∧
      saved.working = s.tree.working ∧
      Node.Preserves (· = s.tree.chainOf i.configPath) s.tree.root saved.root := by
  obtain ⟨saved, hsaved⟩ := hstored.save (c.withFilters service.registry.filters) setting.now
  obtain ⟨hloads, hworking, hkeeps⟩ := Config.save_eq_ok hsaved
  refine ⟨saved, ?_, hloads, hworking, hkeeps⟩
  rw [result_saveConfig, Config.saveFilters_of_load hstored.loads, hsaved]

/-- A refresh that loses nothing in the cache directory saves the list to the configuration file. -/
theorem run_of_refresh {p : Process} {force : Bool} {config : Config} {service refreshed : Service}
    {updated : Nat} {before after : Node} (hcommand : p.invocation.command = .refresh force)
    (hstored : Config.IsStored tree p.invocation.configPath c)
    (hconfigured : configuration tree p.invocation = .ok config)
    (hopened : openedService p.setting p.invocation config tree = .ok service)
    (hrefreshed : Refresh.execute service (policyOf config.filtering) Faults.noneFor
      p.setting.network p.setting.now force = (refreshed, .ok updated))
    (hpath : refreshed.store.path = service.store.path) (hbefore : service.store.place = some before)
    (hafter : refreshed.store.place = some after)
    (hkeeps : Node.Preserves (fun _ => False) before after) :
    (p.run tree).2.status = 0 ∧ Config.IsStored (p.run tree).1 p.invocation.configPath
      (c.withFilters refreshed.registry.filters).persisted := by
  have hgrown := grown_withCache p.setting p.invocation config tree
  have hthere := hstored.of_preserves hgrown.working hgrown.preserves (by simp)
  have hleads := leadsTo_of_sees (sees_of_openedService hopened).1 hbefore
  obtain ⟨hworking, hroot⟩ := FileTree.preserves_replace hleads hkeeps
  have hkept : Config.IsStored (keptCache (withCache p.setting p.invocation config tree) refreshed)
      p.invocation.configPath c := by
    rw [keptCache, hafter, hpath]
    exact hthere.of_preserves hworking hroot (by simp)
  obtain ⟨saved, hsaved, hloads, -⟩ := result_saveConfig_of_stored p.setting refreshed
    (s := { tree := keptCache (withCache p.setting p.invocation config tree) refreshed
            printed := some (FilterInfo.listing refreshed.registry.list) }) hkept
  have hexecuted := result_execute p.setting p.invocation { tree }
  simp only [hconfigured, hopened, result_perform_refresh hcommand, hrefreshed, hsaved] at hexecuted
  rw [Process.run, run_of_read p.read, hexecuted]
  exact ⟨rfl, hloads⟩

end FilterLists.Session
