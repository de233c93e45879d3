import FilterLists.Proofs.Config.Validity
import FilterLists.Proofs.Session.Ids

/-!
Whether a saved configuration can be used again. Its settings are valid, and so are the ids, unless
the list takes the last one: the counter gives it, but a configuration that has it is rejected.
-/
namespace FilterLists

namespace Registry
variable {kept : Registry} {load : Loader}

theorem nextId_loadAll (kept : Registry) (load : Loader) :
    (kept.loadAll load).nextId = (assignMissing kept.nextId kept.filters).2 := rfl

/-- Subscriptions with valid ids have valid ones after the others have got theirs, if these do not
take the last id. -/
theorem ne_maxValue_loadAll (hload : Keeps load) (hbelow : ∀ f ∈ kept.filters, f.id < Int64.maxValue)
    (hspared : kept.filters.countP (fun f => f.id = 0) = 0 ∨
      kept.nextId.toInt + kept.filters.countP (fun f => f.id = 0) ≤ Int64.maxValue.toInt) :
    ∀ id ∈ (kept.loadAll load).filters.map (·.id), id ≠ Int64.maxValue := by
  rw [map_id_loadAll hload]
  refine List.forall_mem_map.mpr (fun g hg => ?_)
  have hcases : (g ∈ kept.filters ∧ g.id ≠ 0) ∨
      g.id < (assignMissing kept.nextId kept.filters).2 := by
    rcases hspared with hnone | hroom
    · refine (mem_assignMissing hg).imp_right (fun ⟨_, f, hf, hzero⟩ => ?_)
      exact absurd (decide_eq_true hzero) (List.countP_eq_zero.mp hnone f hf)
    · exact mem_assignMissing_of_spared hroom hg
  rcases hcases with ⟨hold, -⟩ | hlt
  · exact Int64.ne_of_lt (hbelow g hold)
  · exact Int64.ne_of_lt (Int64.lt_of_lt_of_le hlt (Int64.le_maxValue _))

end Registry

namespace Session

/-- How many subscriptions get an id in a run: the configured ones that have none, and a new one. -/
def neededIds (kept : Registry) (command : Command) : Nat :=
  kept.filters.countP (fun f => f.id = 0) + newIds command

/-- No subscription gets the last id in a run. -/
def SparesLastId (now : Instant) (c : FilteringConfig) (command : Command) : Prop :=
  let kept := Registry.ofConfigured now c.filters c.userRules
  neededIds kept command = 0 ∨ kept.nextId.toInt + neededIds kept command ≤ Int64.maxValue.toInt

section Ids
variable {now : Instant} {c : Config} {service : Service} {load : Loader} {command : Command}

theorem nonneg_edited (hload : Registry.Keeps load) (hvalid : c.validate = .ok ())
    (hnow : now.seconds ≤ Int64.maxValue.toInt)
    (hservice : service.registry =
      (Registry.ofConfigured now c.filtering.filters c.filtering.userRules).loadAll load) :
    ∀ f ∈ (edited service command).1.registry.filters, 0 ≤ f.id := by
  have hids := Config.ids_of_validate hvalid
  have hlisted : ∀ id ∈ service.registry.filters.map (·.id), 0 < id := by
    rw [hservice]
    exact Registry.pos_loadAll_ofConfigured hload hnow (fun f hf => (hids f hf).1)
  have hcounter := Registry.pos_nextId_loadAll hnow c.filtering.filters c.filtering.userRules load
  rw [← hservice] at hcounter
  intro f hf
  rcases mem_edited service command hf with hold | ⟨-, hid, -⟩
  · exact Int64.le_of_lt (hlisted f.id (Registry.id_mem_of_subscription_mem hold))
  · exact hid ▸ Int64.le_of_lt hcounter

theorem ne_maxValue_edited (hload : Registry.Keeps load) (hvalid : c.validate = .ok ())
    (hservice : service.registry =
      (Registry.ofConfigured now c.filtering.filters c.filtering.userRules).loadAll load)
    (hspares : SparesLastId now c.filtering command) :
    ∀ f ∈ (edited service command).1.registry.filters, f.id ≠ Int64.maxValue := by
  simp only [SparesLastId, neededIds] at hspares
  have hids := Config.ids_of_validate hvalid
  have hbelow : ∀ f ∈ (Registry.ofConfigured now c.filtering.filters
      c.filtering.userRules).filters, f.id < Int64.maxValue := fun f hf =>
    (hids f ((Registry.ofConfigured_sublist _ _ _).subset hf)).2
  have hlisted := Registry.ne_maxValue_loadAll hload hbelow (by omega)
  have hcounter := Registry.toInt_assignMissing
    (Registry.ofConfigured now c.filtering.filters c.filtering.userRules).nextId
    (Registry.ofConfigured now c.filtering.filters c.filtering.userRules).filters
  rw [← Registry.nextId_loadAll _ load, ← hservice] at hcounter
  rw [← hservice] at hlisted
  intro f hf
  rcases mem_edited service command hf with hold | ⟨hnew, hid, -⟩
  · exact hlisted f.id (Registry.id_mem_of_subscription_mem hold)
  · rw [hid]
    refine Int64.ne_of_lt (Int64.lt_iff_toInt_lt.mpr ?_)
    omega

end Ids

/-- The settings in a saved file are valid, whatever the list is. -/
theorem SavesList.hasValidSettings {setting : Setting} {i : Invocation} {tree after : FileTree}
    {c config : Config} {service changed : Service}
    (h : SavesList setting i tree after config service changed)
    (hstored : Config.IsStored tree i.configPath c) (hvalid : c.validate = .ok ()) :
    ∃ settings : Config, Config.IsStored after i.configPath
        (settings.withFilters changed.registry.filters).persisted ∧
      (settings.withFilters changed.registry.filters).HasValidSettings := by
  obtain ⟨settings, hafter, hsettings⟩ := h.isStored hstored
  refine ⟨settings, hafter, Config.HasValidSettings.withFilters ?_ _⟩
  rcases hsettings with rfl | ⟨rfl, -⟩
  · exact Config.hasValidSettings_of_validate hvalid
  · exact Config.hasValidSettings_default

/-- What the startup of a daemon or a successful command saves is loaded again. It can be rejected
for the last id only, and is accepted if that was not needed. -/
theorem loads_of_saves {p : Process} {tree after : FileTree} {c : Config}
    (hstored : Config.IsStored tree p.invocation.configPath c) (hvalid : c.validate = .ok ())
    (hnow : p.setting.now.seconds ≤ Int64.maxValue.toInt) (hsaves : p.Saves tree after) :
    ∃ saved, Config.IsStored after p.invocation.configPath saved ∧
      (saved.validate = .ok () ∨ ∃ url, saved.validate = .error (.invalidId url Int64.maxValue)) ∧
      (SparesLastId p.setting.now c.filtering p.invocation.command → saved.validate = .ok ()) := by
  obtain ⟨config, service, changed, hlist⟩ := savesList_of_saves hsaves
  obtain ⟨load, hload, hregistry⟩ := hlist.registry hstored
  obtain ⟨settings, hafter, hkept⟩ := hlist.hasValidSettings hstored hvalid
  have hlisted : (edited service p.invocation.command).1 = changed := congrArg Prod.fst hlist.edits
  have hnonneg : ∀ f ∈ changed.registry.filters, 0 ≤ f.id :=
    hlisted ▸ nonneg_edited hload hvalid hnow hregistry
  refine ⟨_, hafter, ?_, fun hspares => ?_⟩
  · rw [Config.validate_persisted]
    exact hkept.validate_cases hnonneg
  · rw [Config.validate_persisted]
    have hspared := hlisted ▸ ne_maxValue_edited hload hvalid hregistry hspares
    exact Config.validate_eq_ok_iff.mpr ⟨hkept, fun f hf => ⟨hnonneg f hf, hspared f hf⟩⟩

section Instances

def listText (id : String) : String :=
  "[logging]\nlevel = \"debug\"\n\n[[filtering.filters]]\nid = " ++ id ++
    "\nurl = \"http://a/l\"\nname = \"A\"\nenabled = false\n"

def listConfig (id : FilterId) : Config :=
  { logging := { level := "debug" }
    filtering := { filters := [{ id, url := "http://a/l", name := "A" }] } }

def treeOf (cached others : Entries) : FileTree :=
  { root := .directory
      (("data", .directory [("filters", .directory cached ⟨0⟩)] ⟨0⟩) :: others) ⟨0⟩ }

def treeWith (text : String) : FileTree :=
  treeOf [] [("ferrous-filters.toml", .file (bytesOf text) ⟨0⟩)]

def atFive : Setting := { now := ⟨5000⟩, network := fun _ => .plainText "a" }

def adding : Process where
  setting := atFive
  args := ["add", "http://b/l", "--name", "B"]
  invocation := { command := .add "http://b/l" "B" true }
  read := by decide +kernel

theorem loads_of_saves_of_added :
    let path := "ferrous-filters.toml"
    let tree := treeWith (listText "7")
    Config.IsStored tree path (listConfig 7) ∧ (listConfig 7).validate = .ok () ∧
      (adding.run tree).2.status = 0 ∧
      SparesLastId atFive.now (listConfig 7).filtering adding.invocation.command ∧
      ∃ saved, Config.IsStored (adding.run tree).1 path saved ∧ saved.validate = .ok () := by
  intro path tree
  have hstored : Config.IsStored tree path (listConfig 7) :=
    Config.isStored_of_text (listText "7") (by decide +kernel) (by decide +kernel)
  have hvalid : (listConfig 7).validate = .ok () := by decide +kernel
  have hstatus : (adding.run tree).2.status = 0 := by decide +kernel
  have hspares : SparesLastId atFive.now (listConfig 7).filtering adding.invocation.command :=
    .inr (by decide +kernel)
  obtain ⟨saved, hloads, -, hvalidated⟩ :=
    loads_of_saves (p := adding) hstored hvalid (by decide +kernel) (.succeeds rfl hstatus)
  exact ⟨hstored, hvalid, hstatus, hspares, saved, hloads, hvalidated hspares⟩

/-- The counter gives the last id after the one before it, and the saved configuration is then
rejected. -/
theorem not_accepted_of_lastId :
    let path := "ferrous-filters.toml"
    let tree := treeWith (listText "9223372036854775806")
    let config := listConfig (Int64.maxValue - 1)
    Config.IsStored tree path config ∧ config.validate = .ok () ∧
      (adding.run tree).2.status = 0 ∧
      ∃ saved, Config.IsStored (adding.run tree).1 path saved ∧
        saved.validate = .error (.invalidId "http://b/l" Int64.maxValue) := by
  intro path tree config
  have hstored : Config.IsStored tree path config :=
    Config.isStored_of_text (listText "9223372036854775806") (by decide +kernel)
      (by decide +kernel)
  have hvalid : config.validate = .ok () := by decide +kernel
  have hstatus : (adding.run tree).2.status = 0 := by decide +kernel
  obtain ⟨used, service, changed, hsaves⟩ := savesList_of_saves (.succeeds rfl hstatus)
  have hused := configuration_eq_ok (i := adding.invocation) hstored hsaves.configured
  rw [show adding.invocation.overrides = {} from rfl, Config.applyOverrides_none] at hused
  subst hused
  have hbad : ((openedService adding.setting adding.invocation config tree).toOption.bind
      fun service => ((edited service adding.invocation.command).1.registry.filters.find?
        Config.isInvalidId).map (fun f => (f.url, f.id))) = some ("http://b/l", Int64.maxValue) := by
    decide +kernel
  rw [hsaves.opened] at hbad
  simp only [Except.toOption, Option.bind_some, hsaves.edits] at hbad
  obtain ⟨bad, hfound, hsame⟩ := Option.map_eq_some_iff.mp hbad
  obtain ⟨settings, hloads, hkept⟩ := hsaves.hasValidSettings hstored hvalid
  refine ⟨hstored, hvalid, hstatus, _, hloads, ?_⟩
  obtain ⟨hurl, hid⟩ := Prod.mk.inj hsame
  rw [Config.validate_persisted, hkept.validate_eq]
  simp only [Config.withFilters, hfound, hurl, hid]

end Instances

end Session

end FilterLists
