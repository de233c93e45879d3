import FilterLists.Proofs.Session.Acceptance
import FilterLists.Proofs.Session.Listing
import FilterLists.Proofs.Session.Opening

/-!
Processes that list and edit the same list, one after another. Each of them reads the configuration,
makes a service of it, and saves it; together they work on the list as if it were in memory. What
carries the proof is that after every process the file holds the settings as they were, with a list
that a process can start from.
-/
namespace FilterLists

open Session

namespace Process

def runAll (ps : List Process) (tree : FileTree) : FileTree :=
  ps.foldl (fun tree p => (p.run tree).1) tree

/-- A process that lists or edits the subscriptions in a given file. -/
structure Handles (p : Process) (path workDir : String) (ceiling : Nat) : Prop where
  configPath : p.invocation.configPath = path
  workDir : p.invocation.workDir = workDir
  command : p.invocation.command = .list ∨ edits p.invocation.command = true
  tick : ∀ tick ∈ p.invocation.overrides.refreshTickSecs, tick ≠ 0
  clock : p.setting.now.seconds ≤ ceiling

/-- What a process needs to get as far as its command, and leaves for the next one. -/
structure Ready (c : Config) (path workDir : String) (ceiling more : Nat) (tree : FileTree)
    (filters : List Filter) : Prop where
  stored : Config.IsStored tree path (c.withFilters filters)
  valid : (c.withFilters filters).validate = .ok ()
  distinct : ((filters.map (·.id)).filter (· ≠ 0)).Nodup
  idsLeft : HasIdsLeft ceiling filters more
  client : ∃ client, Client.withUserAgent c.filtering.userAgent = .ok client
  made : ∀ now, (tree.ensurePath (c.filtering.storageDir workDir) now).2 = .ok ()
  apart : IsApart tree path (c.filtering.storageDir workDir)

/-- What a process does to a list of subscriptions. -/
structure Does (p : Process) (before after : List Filter) (outcome : Outcome) : Prop where
  listed : after.map Filter.entry = ListEntry.after (before.map Filter.entry) p.invocation.command
  answered : match ListEntry.apply (before.map Filter.entry) p.invocation.command with
    | .ok _ => outcome.status = 0
    | .error e => outcome.status = 1 ∧ outcome.report = some (SessionError.service e).report
  ids : if edits p.invocation.command = true ∧ outcome.status = 0 then Registry.Numbers before after
    else after = before

variable {c : Config} {path workDir : String} {ceiling more : Nat} {tree after : FileTree}
  {filters : List Filter} {p : Process}

theorem Ready.ids (h : Ready c path workDir ceiling more tree filters) :
    ∀ f ∈ filters, 0 ≤ f.id ∧ f.id < Int64.maxValue :=
  Config.ids_of_validate h.valid

/-- The list stays as it is while the files around it change. -/
theorem Ready.same_list (h : Ready c path workDir ceiling (more + 1) tree filters)
    (hstored : Config.IsStored after path (c.withFilters filters))
    (hworking : after.working = tree.working)
    (hmade : after.HasDirectory (c.filtering.storageDir workDir)) :
    Ready c path workDir ceiling more after filters := by
  constructor
  case stored => exact hstored
  case valid => exact h.valid
  case distinct => exact h.distinct
  case idsLeft => exact h.idsLeft.mono (Nat.le_succ more)
  case client => exact h.client
  case made =>
    intro now
    rw [hmade.ensurePath now]
  case apart =>
    intro id
    rw [FileTree.chainOf_congr hworking, FileTree.chainOf_congr hworking]
    exact h.apart id

/-- A new list is one that can be started from if its ids are in order. -/
theorem Ready.new_list {changed : List Filter}
    (h : Ready c path workDir ceiling (more + 1) tree filters)
    (hstored : Config.IsStored after path (c.withFilters changed))
    (hworking : after.working = tree.working)
    (hmade : after.HasDirectory (c.filtering.storageDir workDir))
    (hnumbers : Registry.Numbers filters changed) (hleft : HasIdsLeft ceiling changed more) :
    Ready c path workDir ceiling more after changed := by
  constructor
  case stored => exact hstored
  case valid =>
    obtain ⟨hsettings, -⟩ := Config.validate_eq_ok_iff.mp h.valid
    obtain ⟨highest, -, hids, hroom⟩ := hleft
    refine Config.validate_eq_ok_iff.mpr ⟨hsettings.withFilters changed, fun f hf => ⟨?_, ?_⟩⟩
    · exact Int64.le_of_lt (hnumbers.positive f hf)
    · have hle := hids f hf
      exact Int64.ne_of_lt (Int64.lt_iff_toInt_lt.mpr (by omega))
  case distinct => exact hnumbers.distinct.filter _
  case idsLeft => exact hleft
  case client => exact h.client
  case made =>
    intro now
    rw [hmade.ensurePath now]
  case apart =>
    intro id
    rw [FileTree.chainOf_congr hworking, FileTree.chainOf_congr hworking]
    exact h.apart id

/-- Every process gets as far as its command. -/
theorem Ready.opens (h : Ready c path workDir ceiling (more + 1) tree filters)
    (hp : p.Handles path workDir ceiling) :
    let config := (c.withFilters filters).applyOverrides p.invocation.overrides
    ∃ service, openedService p.setting p.invocation config tree = .ok service ∧
      result (execute p.setting p.invocation) { tree } =
        result (perform p.setting p.invocation config service)
          { tree := withCache p.setting p.invocation config tree } := by
  intro config
  obtain ⟨hpath, hdir, -, htick, hnow⟩ := hp
  have hstored := h.stored
  rw [← hpath] at hstored
  have hconfigured : configuration tree p.invocation = .ok config :=
    configuration_of_stored hstored h.valid htick
  obtain ⟨hids, hdistinct, -⟩ := ids_loadAll_ofConfigured c.filtering.userRules
    (Store.keeps_load (idleService p.setting p.invocation config tree).store
      (fun _ => Faults.none)) hnow h.ids h.distinct h.idsLeft
  have hmade := h.made p.setting.now
  rw [← hdir] at hmade
  obtain ⟨service, hopened⟩ := exists_openedService (c := config) hmade h.client hdistinct
    (fun id hid => (hids id hid).1)
  refine ⟨service, hopened, ?_⟩
  simp only [result_execute, hconfigured, hopened]

theorem registry_of_opened {service : Service} (hopened : openedService p.setting p.invocation
      ((c.withFilters filters).applyOverrides p.invocation.overrides) tree = .ok service) :
    ∃ load, Registry.Keeps load ∧
      service.registry = (Registry.ofConfigured p.setting.now filters
        c.filtering.userRules).loadAll load ∧
      (service.registry.filters.map (·.url)).Nodup ∧
      service.registry.filters.map Filter.entry =
        ListEntry.distinct (filters.map Filter.entry) := by
  obtain ⟨-, hregistry, -⟩ := openedService_eq_ok hopened
  have hload := Store.keeps_load (idleService p.setting p.invocation
    ((c.withFilters filters).applyOverrides p.invocation.overrides) tree).store
      (fun _ => Faults.none)
  refine ⟨_, hload, hregistry, ?_, ?_⟩
  · rw [hregistry]
    refine (Registry.map_url_loadAll hload _).symm ▸ ?_
    exact Registry.ofConfigured_urls ..
  · rw [hregistry]
    refine (ListEntry.map_entry_loadAll hload _).trans ?_
    exact ListEntry.map_entry_ofConfigured ..

theorem Ready.saves (h : Ready c path workDir ceiling (more + 1) tree filters)
    (hp : p.Handles path workDir ceiling) {service changed : Service}
    (hopened : openedService p.setting p.invocation
      ((c.withFilters filters).applyOverrides p.invocation.overrides) tree = .ok service)
    (hedited : edited service p.invocation.command = (changed, .ok ())) :
    let after := editedTree (withCache p.setting p.invocation
      ((c.withFilters filters).applyOverrides p.invocation.overrides) tree) changed p.invocation.command
    ∃ saved, result (saveConfig p.setting p.invocation changed) { tree := after } =
        (.ok (), { tree := saved }) ∧
      Ready c path workDir ceiling more saved (changed.registry.filters.map Filter.persisted) ∧
      Registry.Numbers filters (changed.registry.filters.map Filter.persisted) := by
  obtain ⟨rfl, rfl, -, -, hnow⟩ := hp
  intro after
  obtain ⟨load, hload, hregistry, -⟩ := registry_of_opened hopened
  obtain ⟨hnumbers, hleft⟩ := numbers_edited hload hnow h.ids h.distinct h.idsLeft hregistry
    p.invocation.command
  rw [hedited] at hnumbers hleft
  obtain ⟨hstays, hworking, hthere⟩ := kept_of_apart h.stored h.apart hopened hedited
  obtain ⟨saved, hsaved, hstored, hworking', hkeeps⟩ :=
    result_saveConfig_of_stored p.setting changed (s := { tree := after }) hstays
  refine ⟨saved, hsaved, ?_, hnumbers.map_persisted⟩
  exact h.new_list hstored (hworking'.trans hworking) (hthere.of_preserves hworking' hkeeps)
    hnumbers.map_persisted hleft.map_persisted

/-- A process does to the list what its command says, and the next one can start from it. -/
theorem Ready.step (h : Ready c path workDir ceiling (more + 1) tree filters)
    (hp : p.Handles path workDir ceiling) :
    ∃ after, Ready c path workDir ceiling more (p.run tree).1 after ∧
      p.Does filters after (p.run tree).2 := by
  obtain ⟨service, hopened, hexecuted⟩ := h.opens hp
  obtain ⟨load, hload, hregistry, hurls, hentries⟩ := registry_of_opened hopened
  have hgrown := grown_withCache p.setting p.invocation
    ((c.withFilters filters).applyOverrides p.invocation.overrides) tree
  obtain ⟨hmade, -⟩ := openedService_eq_ok hopened
  have hsame := h.same_list (h.stored.of_preserves hgrown.working hgrown.preserves (by simp))
    hgrown.working (hp.workDir ▸ FileTree.hasDirectory_of_ensurePath hmade)
  rw [run, run_of_read p.read, hexecuted]
  rcases hp.command with hlist | hedits
  · -- Listing leaves everything as it is.
    have hother : ¬ edits p.invocation.command = true := by simp [hlist, edits]
    rw [result_perform_list hlist]
    refine ⟨filters, hsame, ?_, ?_, ?_⟩
    · rw [ListEntry.after, ListEntry.apply, if_neg hother]
    · rw [ListEntry.apply, if_neg hother]
    · rw [if_neg (fun hboth => hother hboth.1)]
  · have hanswers := edited_answers hurls p.invocation.command
    have happly : ListEntry.apply (filters.map Filter.entry) p.invocation.command =
        ListEntry.edit (ListEntry.distinct (filters.map Filter.entry)) p.invocation.command := if_pos hedits
    rw [hentries, ← happly] at hanswers
    rw [result_perform_edit hedits]
    rcases hedited : edited service p.invocation.command with ⟨changed, e | ⟨⟩⟩
    · -- A refused command does not reach the file.
      rw [hedited] at hanswers
      refine ⟨filters, hsame, ?_, ?_, ?_⟩
      · rw [ListEntry.after, hanswers.eq_error]
      · rw [hanswers.eq_error]
        exact ⟨rfl, rfl⟩
      · rw [if_neg (by simp)]
    · rw [hedited] at hanswers
      obtain ⟨saved, hsaved, hready, hnumbers⟩ := h.saves hp hopened hedited
      simp only [hsaved]
      refine ⟨changed.registry.filters.map Filter.persisted, hready, ?_, ?_, ?_⟩
      · rw [ListEntry.after, hanswers.eq_ok, ListEntry.map_entry_persisted]
      · rw [hanswers.eq_ok]
      · rw [if_pos ⟨hedits, rfl⟩]
        exact hnumbers

def listing (entries : List ListEntry) (ps : List Process) : List ListEntry :=
  ps.foldl (fun entries p => ListEntry.after entries p.invocation.command) entries

theorem Ready.runAll {ps : List Process}
    (h : Ready c path workDir ceiling (more + ps.length) tree filters)
    (hps : ∀ p ∈ ps, p.Handles path workDir ceiling) :
    ∃ after, Ready c path workDir ceiling more (runAll ps tree) after ∧
      after.map Filter.entry = listing (filters.map Filter.entry) ps := by
  induction ps generalizing tree filters with
  | nil => exact ⟨filters, h, rfl⟩
  | cons p rest ih =>
    obtain ⟨hp, hrest⟩ := List.forall_mem_cons.mp hps
    obtain ⟨between, hready, hdoes⟩ := Ready.step h hp
    obtain ⟨after, hafter, hlisted⟩ := ih hready hrest
    refine ⟨after, hafter, ?_⟩
    rw [hlisted, hdoes.listed]
    rfl

theorem ready_of_stored (hstored : Config.IsStored tree path c) (hvalid : c.validate = .ok ())
    (hdistinct : ((c.filtering.filters.map (·.id)).filter (· ≠ 0)).Nodup)
    (hids : ∀ f ∈ c.filtering.filters, f.id.toInt ≤ ceiling)
    (hroom : ceiling + c.filtering.filters.length + more < Int64.maxValue.toInt)
    (hclient : ∃ client, Client.withUserAgent c.filtering.userAgent = .ok client)
    (hmade : ∀ now, (tree.ensurePath (c.filtering.storageDir workDir) now).2 = .ok ())
    (hapart : IsApart tree path (c.filtering.storageDir workDir)) :
    Ready c path workDir ceiling more tree c.filtering.filters := by
  have hfewer := List.countP_le_length (p := fun f : Filter => f.id = 0) (l := c.filtering.filters)
  exact ⟨hstored, hvalid, hdistinct, ⟨ceiling, Nat.le_refl _, hids, by omega⟩, hclient, hmade,
    hapart⟩

/-- Processes that list and edit the subscriptions in one file, one after another, do to them what
the commands do to a list in memory, and to nothing else in the file. Each of them fails just if its
command does, and a failed one leaves the list as it is. -/
theorem refines_listing (hstored : Config.IsStored tree path c) (hvalid : c.validate = .ok ())
    (hdistinct : ((c.filtering.filters.map (·.id)).filter (· ≠ 0)).Nodup)
    (hids : ∀ f ∈ c.filtering.filters, f.id.toInt ≤ ceiling)
    (hclient : ∃ client, Client.withUserAgent c.filtering.userAgent = .ok client)
    (hmade : ∀ now, (tree.ensurePath (c.filtering.storageDir workDir) now).2 = .ok ())
    (hapart : IsApart tree path (c.filtering.storageDir workDir)) (done : List Process) (p : Process)
    (hdone : ∀ q ∈ done, q.Handles path workDir ceiling) (hp : p.Handles path workDir ceiling)
    (hroom : ceiling + c.filtering.filters.length + (done.length + 1) < Int64.maxValue.toInt) :
    ∃ before after, Config.IsStored (runAll done tree) path (c.withFilters before) ∧
      before.map Filter.entry = listing (c.filtering.filters.map Filter.entry) done ∧
      Config.IsStored (p.run (runAll done tree)).1 path (c.withFilters after) ∧
      p.Does before after (p.run (runAll done tree)).2 := by
  have hready : Ready c path workDir ceiling (1 + done.length) tree c.filtering.filters :=
    ready_of_stored hstored hvalid hdistinct hids (by push_cast; omega) hclient hmade hapart
  obtain ⟨before, hbefore, hlisted⟩ := Ready.runAll hready hdone
  obtain ⟨after, hafter, hdoes⟩ := Ready.step hbefore hp
  exact ⟨before, after, hbefore.stored, hlisted, hafter.stored, hdoes⟩

section Instances

theorem validate_listConfig : (listConfig 7).validate = .ok () := by decide +kernel

theorem exists_client_listConfig :
    ∃ client, Client.withUserAgent (listConfig 7).filtering.userAgent = .ok client :=
  ⟨{ userAgent := some (listConfig 7).filtering.userAgent }, by decide +kernel⟩

theorem ensurePath_treeOf (cached others : Entries) (now : Instant) :
    ((treeOf cached others).ensurePath ((listConfig 7).filtering.storageDir ".") now).2 = .ok () := by
  have hmade : (treeOf cached others).HasDirectory ((listConfig 7).filtering.storageDir ".") :=
    ⟨by decide +kernel, .inr ⟨_, _, rfl⟩⟩
  rw [hmade.ensurePath now]

def disabling : Process where
  setting := atFive
  args := ["--refresh-tick-secs", "5", "disable", "http://b/l"]
  invocation := { overrides := { refreshTickSecs := some 5 }, command := .disable "http://b/l" }
  read := by decide +kernel

theorem refines_listing_of_addedAndDisabled :
    let path := "ferrous-filters.toml"
    let tree := treeWith (listText "7")
    Config.IsStored tree path (listConfig 7) ∧ (listConfig 7).validate = .ok () ∧
      (∃ client, Client.withUserAgent (listConfig 7).filtering.userAgent = .ok client) ∧
      IsApart tree path ((listConfig 7).filtering.storageDir ".") ∧
      adding.Handles path "." 7 ∧ disabling.Handles path "." 7 ∧
      ∃ before after,
        Config.IsStored (runAll [adding] tree) path ((listConfig 7).withFilters before) ∧
        before.map Filter.entry = [⟨"http://a/l", "A", false⟩, ⟨"http://b/l", "B", true⟩] ∧
        Config.IsStored (disabling.run (runAll [adding] tree)).1 path
          ((listConfig 7).withFilters after) ∧
        after.map Filter.entry = [⟨"http://a/l", "A", false⟩, ⟨"http://b/l", "B", false⟩] ∧
        (disabling.run (runAll [adding] tree)).2.status = 0 := by
  intro path tree
  have hstored : Config.IsStored tree path (listConfig 7) :=
    Config.isStored_of_text (listText "7") (by decide +kernel) (by decide +kernel)
  have hapart : IsApart tree path ((listConfig 7).filtering.storageDir ".") := by
    have hpath : tree.chainOf path = ["ferrous-filters.toml"] := by decide +kernel
    have hcache : tree.chainOf ((listConfig 7).filtering.storageDir ".") = ["data", "filters"] := by
      decide +kernel
    intro id
    simp [hpath, hcache]
  have hadding : adding.Handles path "." 7 := ⟨rfl, rfl, .inr rfl, by simp [adding], by decide⟩
  have hdisabling : disabling.Handles path "." 7 :=
    ⟨rfl, rfl, .inr rfl, by simp [disabling], by decide⟩
  obtain ⟨before, after, hbefore, hlisted, hafter, hdoes⟩ :=
    refines_listing hstored validate_listConfig (by decide +kernel) (by decide +kernel)
      exists_client_listConfig (ensurePath_treeOf _ _) hapart [adding] disabling
      (by simpa using hadding) hdisabling (by decide +kernel)
  have hcommands : ListEntry.apply [⟨"http://a/l", "A", false⟩, ⟨"http://b/l", "B", true⟩]
      disabling.invocation.command =
        .ok [⟨"http://a/l", "A", false⟩, ⟨"http://b/l", "B", false⟩] := by
    decide +kernel
  have hshown : before.map Filter.entry =
      [⟨"http://a/l", "A", false⟩, ⟨"http://b/l", "B", true⟩] := by
    rw [hlisted]
    decide +kernel
  obtain ⟨hlast, hanswered, -⟩ := hdoes
  rw [hshown, ListEntry.after, hcommands] at hlast
  rw [hshown, hcommands] at hanswered
  exact ⟨hstored, validate_listConfig, exists_client_listConfig, hapart, hadding, hdisabling,
    before, after, hbefore, hshown, hafter, hlast, hanswered⟩

/-- A process that removes the subscription whose cached file is the configuration file. -/
def removing : Process where
  setting := atFive
  args := ["-c", "data/filters/7.txt", "remove", "http://a/l"]
  invocation := { configPath := "data/filters/7.txt", command := .remove "http://a/l" }
  read := by decide +kernel

/-- A removal deletes the cached file. If that is the configuration file, the settings in it are
gone when the list is saved, and the defaults are saved with the list. -/
theorem not_settings_kept_of_cachedConfiguration :
    let path := "data/filters/7.txt"
    let tree := treeOf [("7.txt", .file (bytesOf (listText "7")) ⟨0⟩)] []
    Config.IsStored tree path (listConfig 7) ∧ (listConfig 7).validate = .ok () ∧
      (∃ client, Client.withUserAgent (listConfig 7).filtering.userAgent = .ok client) ∧
      (∀ now, (tree.ensurePath ((listConfig 7).filtering.storageDir ".") now).2 = .ok ()) ∧
      removing.Handles path "." 7 ∧ (removing.run tree).2.status = 0 ∧
      ∃ saved, Config.IsStored (removing.run tree).1 path saved ∧
        (listConfig 7).logging.level = "debug" ∧ saved.logging.level = "info" := by
  intro path tree
  have hstored : Config.IsStored tree path (listConfig 7) :=
    Config.isStored_of_text (listText "7") (by decide +kernel) (by decide +kernel)
  have hstatus : (removing.run tree).2.status = 0 := by decide +kernel
  obtain ⟨config, service, changed, hsaves⟩ := savesList_of_saves (.succeeds rfl hstatus)
  have hconfig := configuration_eq_ok (i := removing.invocation) hstored hsaves.configured
  rw [show removing.invocation.overrides = {} from rfl, Config.applyOverrides_none] at hconfig
  subst hconfig
  -- The configuration file is gone when it is read for the second time.
  have hgone : (match openedService removing.setting removing.invocation (listConfig 7) tree with
      | .ok service =>
        (editedTree (withCache removing.setting removing.invocation (listConfig 7) tree)
          (edited service removing.invocation.command).1
          removing.invocation.command).exists? removing.invocation.configPath
      | .error _ => true) = false := by decide +kernel
  rw [hsaves.opened] at hgone
  have hsaved := hsaves.saved
  simp only [hsaves.edits] at hgone
  rw [Config.saveFilters_of_load (Config.load_of_missing hgone)] at hsaved
  exact ⟨hstored, validate_listConfig, exists_client_listConfig, ensurePath_treeOf _ _,
    ⟨rfl, rfl, .inr rfl, by simp [removing], by decide⟩, hstatus, _, (Config.save_eq_ok hsaved).1,
    rfl, rfl⟩

end Instances

end Process

end FilterLists
