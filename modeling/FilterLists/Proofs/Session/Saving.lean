import FilterLists.Daemon
import FilterLists.Proofs.Session.Cache
import FilterLists.Proofs.Session.Edit

/-!
The runs that save the list. A command that edits it and succeeds, and the startup of a daemon, take
the configuration from the file, make a service of it, and put the list of that service, edited as
the command says, in the place of the configured one.
-/
namespace FilterLists

open Session

variable {setting : Setting} {i : Invocation} {tree after : FileTree}
  {c : Config}

/-- A run of a daemon is its startup, its cycles and its shutdown. -/
theorem Daemon.execute_run {force : Bool} (hcommand : i.command = .run force) (setting : Setting) :
    execute setting i = (do
      let l ← startUp setting i
      let served ← serve setting l.policy setting.cycles force (← reopenCache l.service)
      updateTree (shutDown · i { l with service := served } setting.now)) := by
  simp [execute, perform, hcommand, startUp, shutDown]

structure Process where
  setting : Setting
  args : List String
  invocation : Invocation
  read : CommandLine.read args = .ok invocation

namespace Process

def run (p : Process) (tree : FileTree) : FileTree × Outcome :=
  Session.run p.setting p.args tree

/-- The tree after the startup of a daemon, or after a command that has changed the list. -/
inductive Saves (p : Process) (tree : FileTree) : FileTree → Prop
  | startsUp {force : Bool} {l : LiveService} {t : SessionState}
      (hcommand : p.invocation.command = .run force)
      (hstarted : result (Daemon.startUp p.setting p.invocation) { tree } = (.ok l, t)) :
      Saves p tree t.tree
  | succeeds (hedits : edits p.invocation.command = true) (hstatus : (p.run tree).2.status = 0) :
      Saves p tree (p.run tree).1

end Process

namespace Session

/-- A list has been saved in the place of the configured one. -/
structure SavesList (setting : Setting) (i : Invocation) (tree after : FileTree)
    (config : Config) (service edited : Service) : Prop where
  configured : configuration tree i = .ok config
  opened : openedService setting i config tree = .ok service
  edits : Session.edited service i.command = (edited, .ok ())
  saved : Config.saveFilters (editedTree (withCache setting i config tree) edited i.command)
    i.configPath edited.registry.filters setting.now = .ok after

theorem result_saveConfig_eq_ok {service : Service} {s t : SessionState}
    (h : result (saveConfig setting i service) s = (.ok (), t)) :
    Config.saveFilters s.tree i.configPath service.registry.filters setting.now = .ok t.tree := by
  rw [result_saveConfig] at h
  cases hsaved : Config.saveFilters s.tree i.configPath service.registry.filters setting.now with
  | error e => simp [hsaved] at h
  | ok tree =>
    rw [hsaved] at h
    cases h
    rfl

/-- The startup of a daemon saves the list and leaves no cycle under way. -/
theorem startUp_eq_ok {l : LiveService} {t : SessionState}
    (h : result (Daemon.startUp setting i) { tree } = (.ok l, t)) :
    ∃ config, configuration tree i = .ok config ∧
      openedService setting i config tree = .ok l.service ∧
      Config.saveFilters (withCache setting i config tree) i.configPath
        l.service.registry.filters setting.now = .ok t.tree ∧
      l = { service := l.service, policy := policyOf config.filtering } := by
  rw [Daemon.startUp] at h
  obtain ⟨config, s, hconfig, h⟩ := bind_eq_ok h
  rw [result_loadConfig] at hconfig
  obtain ⟨hconfigured, rfl⟩ := Prod.mk.inj hconfig
  obtain ⟨service, s, hopen, h⟩ := bind_eq_ok h
  rw [result_openService] at hopen
  obtain ⟨hopened, rfl⟩ := Prod.mk.inj hopen
  obtain ⟨⟨⟩, s, hsave, h⟩ := bind_eq_ok h
  have hsaved := result_saveConfig_eq_ok hsave
  rw [result_pure] at h
  cases h
  exact ⟨config, hconfigured, hopened, hsaved, rfl⟩

theorem savesList_of_execute {t : SessionState} (hedits : Session.edits i.command = true)
    (h : result (execute setting i) { tree } = (.ok (), t)) :
    ∃ config service edited, SavesList setting i tree t.tree config service edited := by
  rw [result_execute] at h
  cases hconfigured : configuration tree i with
  | error e => simp [hconfigured] at h
  | ok config =>
    cases hopened : openedService setting i config tree with
    | error e => simp [hconfigured, hopened] at h
    | ok service =>
      simp only [hconfigured, hopened, result_perform_edit hedits] at h
      rcases hedited : Session.edited service i.command with ⟨edited, _ | _⟩
      · simp [hedited] at h
      · rw [hedited] at h
        have hsaved := result_saveConfig_eq_ok h
        exact ⟨config, service, edited, hconfigured, hopened, hedited, hsaved⟩

theorem savesList_of_saves {p : Process} (h : p.Saves tree after) :
    ∃ config service changed, SavesList p.setting p.invocation tree after config service changed := by
  cases h with
  | startsUp hcommand hstarted =>
    obtain ⟨config, hconfigured, hopened, hsaved, -⟩ := startUp_eq_ok hstarted
    exact ⟨config, _, _, hconfigured, hopened, by rw [hcommand]; rfl, by rw [hcommand]; exact hsaved⟩
  | succeeds hedits hstatus =>
    obtain ⟨t, hexecuted, htree⟩ := execute_eq_ok_of_status p.read hstatus
    rw [Process.run, htree]
    exact savesList_of_execute hedits hexecuted

theorem configuration_eq_ok {config : Config} (hstored : Config.IsStored tree i.configPath c)
    (h : configuration tree i = .ok config) : config = c.applyOverrides i.overrides := by
  rw [configuration, Config.load_overrides, hstored.loads] at h
  simp only [Except.map] at h
  split at h <;> cases h
  rfl

variable {config : Config} {service edited : Service}

theorem SavesList.registry (h : SavesList setting i tree after config service edited)
    (hstored : Config.IsStored tree i.configPath c) :
    ∃ load, Registry.Keeps load ∧ service.registry =
      (Registry.ofConfigured setting.now c.filtering.filters c.filtering.userRules).loadAll
        load := by
  have hconfig := configuration_eq_ok hstored h.configured
  subst hconfig
  obtain ⟨-, hregistry, -⟩ := openedService_eq_ok h.opened
  exact ⟨_, Store.keeps_load _ (fun _ => Faults.none), hregistry⟩

/-- The file holds the new list. The settings are as before, or the defaults if a removal has
deleted the file before it was saved. -/
theorem SavesList.isStored (h : SavesList setting i tree after config service edited)
    (hstored : Config.IsStored tree i.configPath c) :
    ∃ settings : Config, Config.IsStored after i.configPath
        (settings.withFilters edited.registry.filters).persisted ∧
      (settings = c ∨ settings = {} ∧ ∃ id, tree.chainOf i.configPath =
        tree.chainOf (config.filtering.storageDir i.workDir) ++ [Store.fileName id]) := by
  obtain ⟨hsees, hpath⟩ := sees_of_openedService h.opened
  have hgrown := grown_withCache setting i config tree
  have hmade := hstored.of_preserves hgrown.working hgrown.preserves (by simp)
  obtain ⟨lost, hkept⟩ := exists_cacheKept hsees i.command
  rw [h.edits] at hkept
  have hload : ∃ settings : Config, Config.load
      (editedTree (withCache setting i config tree) edited i.command) (some i.configPath) {} =
        .ok settings ∧ (settings = c ∨ settings = {} ∧ ∃ id, tree.chainOf i.configPath =
          tree.chainOf (config.filtering.storageDir i.workDir) ++ [Store.fileName id]) := by
    rcases hkept.stored hmade with hstays | ⟨⟨id, hid⟩, hgone⟩
    · exact ⟨c, hstays.loads, .inl rfl⟩
    · rw [hpath, FileTree.chainOf_congr hgrown.working, FileTree.chainOf_congr hgrown.working] at hid
      exact ⟨{}, Config.load_of_missing hgone, .inr ⟨rfl, id, hid⟩⟩
  obtain ⟨settings, hloads, hsettings⟩ := hload
  have hsaved := h.saved
  rw [Config.saveFilters_of_load hloads] at hsaved
  exact ⟨settings, (Config.save_eq_ok hsaved).1, hsettings⟩

end Session

end FilterLists
