import FilterLists.Proofs.Daemon.Names
import FilterLists.Proofs.Session.Opening

/-!
What a daemon writes to the configuration file at its shutdown. Only names change, and each of them
to one that the daemon has. That is a title that it has fetched, unless another process has renamed
the entry since the startup: then the name from the startup comes back.
-/
namespace FilterLists

open Session

namespace Daemon
variable {setting : Setting} {i : Invocation} {tree atEnd : FileTree} {l : LiveService}
  {t : SessionState} {d : Config}

/-- After its startup a daemon has the entries of the configuration file, no two with one URL. -/
theorem isStored_of_startUp (h : result (startUp setting i) { tree } = (.ok l, t)) :
    ∃ saved, Config.IsStored t.tree i.configPath saved ∧
      saved.filtering.filters = l.service.registry.filters.map Filter.persisted ∧
      (saved.filtering.filters.map (·.url)).Nodup ∧ l.cycles = [] := by
  obtain ⟨config, -, hopened, hsaved, hl⟩ := startUp_eq_ok h
  obtain ⟨settings, hstored⟩ := Config.saveFilters_eq_ok hsaved
  obtain ⟨-, hregistry, -⟩ := openedService_eq_ok hopened
  refine ⟨_, hstored, rfl, ?_, by rw [hl]⟩
  have hurls : (l.service.registry.filters.map (·.url)).Nodup := by
    rw [hregistry]
    refine (Registry.map_url_loadAll (Store.keeps_load _ (fun _ => Faults.none)) _).symm ▸ ?_
    exact Registry.ofConfigured_urls setting.now config.filtering.filters config.filtering.userRules
  simpa [Config.persisted, Config.withFilters, Filter.persisted, Function.comp_def] using hurls

/-- At the shutdown of a daemon the configuration stays as it is found but for names. An entry gets
the name that the daemon has for its id and URL, and this is a title that the daemon has fetched, or
the name that the entry had after the startup and has no more. -/
theorem names_of_shutDown (hstarted : result (startUp setting i) { tree } = (.ok l, t))
    (events : List DaemonEvent) (hstored : Config.IsStored atEnd i.configPath d) (now : Instant) :
    let runtime := (run l events).service.registry.filters
    ∃ saved after, Config.IsStored t.tree i.configPath saved ∧
      shutDown atEnd i (run l events) now = .ok after ∧
      Config.IsStored after i.configPath (d.withNames runtime) ∧
      ∀ f ∈ d.filtering.filters, FilteringConfig.runtimeName runtime f ≠ f.name →
        (∃ live ∈ runtime, live.id = f.id ∧ live.url = f.url ∧
          live.name = FilteringConfig.runtimeName runtime f) ∧
        (Learned l events f.id f.url (FilteringConfig.runtimeName runtime f) ∨
          f ∉ saved.filtering.filters ∧ ∃ g ∈ saved.filtering.filters, g.id = f.id ∧
            g.url = f.url ∧ g.name = FilteringConfig.runtimeName runtime f) := by
  intro runtime
  obtain ⟨saved, hsaved, hfilters, hurls, hidle⟩ := isStored_of_startUp hstarted
  obtain ⟨after, hshut, hafter⟩ := hstored.saveNames runtime now
  refine ⟨saved, after, hsaved, hshut, hafter, fun f _ hrenamed => ?_⟩
  obtain ⟨live, hlive, hid, hurl, hname⟩ :=
    (Config.runtimeName_cases runtime f).resolve_left hrenamed
  refine ⟨⟨live, hlive, hid, hurl, hname.symm⟩, ?_⟩
  rw [hname]
  rcases name_of_run hidle events live hlive with ⟨g, hg, hgid, hgurl, hgname⟩ | hlearned
  · have hkept : g.persisted ∈ saved.filtering.filters := hfilters ▸ List.mem_map_of_mem hg
    refine .inr ⟨fun hf => hrenamed ?_, g.persisted, hkept, hgid.trans hid, hgurl.trans hurl, hgname⟩
    have hsame : g.persisted = f :=
      List.inj_on_of_nodup_map hurls hkept hf (hgurl.trans hurl)
    rw [hname, ← hgname, ← hsame]
    rfl
  · exact .inl (hid ▸ hurl ▸ hlearned)

section Instances

def enabledText : String :=
  "[[filtering.filters]]\nid = 7\nurl = \"http://a/l\"\nname = \"A\"\nenabled = true\n"

def enabledEntry : Filter := { id := 7, url := "http://a/l", name := "A", enabled := true }

def titled : Setting := { now := ⟨5000⟩, network := fun _ => .plainText "! Title: T\na" }

def serving : Invocation := { command := .run false }

def titleLearned : List DaemonEvent :=
  [.refreshes (.cycleBegins ⟨6000⟩ false) rfl, .refreshes (.downloadStarts 0 Faults.none) rfl,
    .refreshes (.downloadEnds 0 0 (.plainText "! Title: T\na")) rfl,
    .refreshes (.persists 0 0 Faults.none ⟨6000⟩) rfl, .refreshes (.cycleEnds 0) rfl]

theorem names_of_shutDown_of_title :
    ∃ l t saved after,
      result (startUp titled serving) { tree := treeWith enabledText } = (.ok l, t) ∧
      Config.IsStored t.tree serving.configPath saved ∧
      saved.filtering.filters = [enabledEntry] ∧
      shutDown t.tree serving (run l titleLearned) ⟨7000⟩ = .ok after ∧
      Config.IsStored after serving.configPath
        (saved.withFilters [{ enabledEntry with name := "T" }]) ∧
      Learned l titleLearned 7 "http://a/l" "T" := by
  have hshape : (match result (startUp titled serving) { tree := treeWith enabledText } with
      | (.ok l, _) => some (l.service.registry.filters.map Filter.persisted,
          FilteringConfig.runtimeName (run l titleLearned).service.registry.filters enabledEntry)
      | (.error _, _) => none) = some ([enabledEntry], "T") := by decide +kernel
  rcases hstarted : result (startUp titled serving) { tree := treeWith enabledText } with
    ⟨e | l, t⟩
  · simp [hstarted] at hshape
  · simp only [hstarted, Option.some.injEq, Prod.mk.injEq] at hshape
    obtain ⟨hentries, hname⟩ := hshape
    obtain ⟨d, hd, hlisted, -⟩ := isStored_of_startUp hstarted
    obtain ⟨saved, after, hsaved, hshut, hafter, hnames⟩ :=
      names_of_shutDown hstarted titleLearned hd ⟨7000⟩
    obtain rfl : d = saved := Except.ok.inj (hd.loads.symm.trans hsaved.loads)
    rw [hentries] at hlisted
    have hmem : enabledEntry ∈ d.filtering.filters := by simp [hlisted]
    obtain ⟨-, hlearned⟩ := hnames enabledEntry hmem (by rw [hname]; decide)
    rw [hname] at hlearned
    refine ⟨l, t, d, after, rfl, hd, hlisted, hshut, ?_, hlearned.resolve_right (fun h => h.1 hmem)⟩
    simpa [Config.withNames, Config.withFilters, FilteringConfig.applyRuntimeNames, hlisted, hname]
      using hafter

/-- Another process that fetches the list. -/
def refreshing : Process where
  setting := titled
  args := ["refresh"]
  invocation := { command := .refresh false }
  read := by decide +kernel

def refreshedOn (tree : FileTree) (config : Config) : Option (List Filter) :=
  match openedService titled refreshing.invocation config tree with
  | .error _ => none
  | .ok service =>
    match Refresh.execute service (policyOf config.filtering) Faults.noneFor titled.network
        titled.now false with
    | (_, .error _) => none
    | (refreshed, .ok _) =>
      match service.store.place, refreshed.store.place with
      | some (.directory [] _), some (.directory _ _) =>
        if refreshed.store.path = service.store.path then
          some (refreshed.registry.filters.map Filter.persisted)
        else none
      | _, _ => none

theorem isStored_of_refreshedOn {filters : List Filter} (hvalid : d.validate = .ok ())
    (hstored : Config.IsStored tree serving.configPath d) (h : refreshedOn tree d = some filters) :
    (refreshing.run tree).2.status = 0 ∧
      Config.IsStored (refreshing.run tree).1 serving.configPath (d.withFilters filters) := by
  have hconfig : configuration tree refreshing.invocation = .ok d :=
    configuration_of_stored hstored hvalid (by simp [refreshing])
  unfold refreshedOn at h
  split at h
  · cases h
  · next service hopened =>
    split at h
    · cases h
    · next refreshed n hrefreshed =>
      split at h
      · next t entries t' hbefore hafter =>
        split_ifs at h with hpath
        cases h
        exact run_of_refresh (p := refreshing) rfl hstored hconfig hopened hrefreshed hpath hbefore
          hafter (.of_empty t t' entries)
      · cases h

/-- After the startup another process learns a title and writes it to the configuration file. The
daemon, which has fetched nothing, writes the old name back. -/
theorem not_kept_of_refresh :
    let written : Config := Config.withFilters {} [enabledEntry]
    let learned : Config := Config.withFilters {} [{ enabledEntry with name := "T" }]
    ∃ l t final,
      result (startUp titled serving) { tree := treeWith enabledText } = (.ok l, t) ∧
      Config.IsStored t.tree serving.configPath written ∧
      (refreshing.run t.tree).2.status = 0 ∧
      Config.IsStored (refreshing.run t.tree).1 serving.configPath learned ∧
      shutDown (refreshing.run t.tree).1 serving (run l []) ⟨7000⟩ = .ok final ∧
      Config.IsStored final serving.configPath written := by
  intro written learned
  have hshape : (match result (startUp titled serving) { tree := treeWith enabledText } with
      | (.ok l, t) => some (l.service.registry.filters.map Filter.persisted,
          FilteringConfig.runtimeName l.service.registry.filters { enabledEntry with name := "T" },
          refreshedOn t.tree written)
      | (.error _, _) => none) =
        some ([enabledEntry], "A", some [{ enabledEntry with name := "T" }]) := by decide +kernel
  have hfirst : Config.IsStored (treeWith enabledText) serving.configPath written :=
    Config.isStored_of_text enabledText (by decide +kernel) (by decide +kernel)
  rcases hstarted : result (startUp titled serving) { tree := treeWith enabledText } with
    ⟨e | l, t⟩
  · simp [hstarted] at hshape
  · simp only [hstarted, Option.some.injEq, Prod.mk.injEq] at hshape
    obtain ⟨hentries, hname, hrefreshed⟩ := hshape
    obtain ⟨config, -, -, hsaved, -⟩ := startUp_eq_ok hstarted
    have hgrown := grown_withCache titled serving config (treeWith enabledText)
    have hthere := hfirst.of_preserves hgrown.working hgrown.preserves (by simp)
    rw [Config.saveFilters_of_load hthere.loads] at hsaved
    have hwritten : Config.IsStored t.tree serving.configPath written := by
      simpa [Config.persisted, Config.withFilters, hentries, written] using (Config.save_eq_ok hsaved).1
    obtain ⟨hstatus, hlearned⟩ :=
      isStored_of_refreshedOn (by decide +kernel) hwritten hrefreshed
    obtain ⟨final, hshut, hfinal⟩ := hlearned.saveNames l.service.registry.filters ⟨7000⟩
    have hback : learned.withNames l.service.registry.filters = written := by
      simp only [Config.withNames, Config.withFilters, FilteringConfig.applyRuntimeNames, learned,
        List.map_cons, List.map_nil, hname]
      rfl
    exact ⟨l, t, final, rfl, hwritten, hstatus, hlearned, hshut, hback ▸ hfinal⟩

end Instances

end Daemon

end FilterLists
