import FilterLists.Proofs.FileTree.Operations
import FilterLists.Proofs.Config.File
import FilterLists.Proofs.Session.Run

/-!
What a run does to the files around the cache directory. Making the directory keeps every file, and
a command deletes at most the cached file of one subscription, which may be the configuration file.
-/
namespace FilterLists

theorem Store.remove_cases (s : Store) (f : Filter) :
    (s.remove Faults.none f).1 = s ∨
      ∃ content t, s.entry (Store.fileName f.id) = .ok (.file content t) ∧
        (s.remove Faults.none f).1 = s.erase (Store.fileName f.id) := by
  have hentry : Store.unlessRefused (Faults.none .remove) (s.entry (Store.fileName f.id)) =
      s.entry (Store.fileName f.id) := rfl
  simp only [Store.remove, hentry]
  cases s.entry (Store.fileName f.id) with
  | error e => cases e <;> exact .inl rfl
  | ok node =>
    cases node with
    | file content t => exact .inr ⟨content, t, rfl, rfl⟩
    | directory entries t => exact .inl rfl

theorem Service.removeFilter_store (s : Service) (url : String) :
    (s.removeFilter Faults.none url).1.store = s.store ∨
      ∃ (f : Filter) (content : Bytes) (t : Instant),
        s.store.entry (Store.fileName f.id) = .ok (.file content t) ∧
        (s.removeFilter Faults.none url).1.store = s.store.erase (Store.fileName f.id) := by
  unfold Service.removeFilter
  split
  · exact .inl rfl
  · next f _ =>
    rcases s.store.remove_cases f with hsame | ⟨content, t, hfile, herase⟩
    · exact .inl hsame
    · exact .inr ⟨f, content, t, hfile, herase⟩

namespace Session

open Node (Preserves)

variable {setting : Setting} {i : Invocation} {config : Config} {tree : FileTree} {service : Service}

theorem grown_withCache (setting : Setting) (i : Invocation) (config : Config) (tree : FileTree) :
    FileTree.Grown tree (withCache setting i config tree) :=
  FileTree.grown_ensurePath ..

def Sees (tree : FileTree) (service : Service) : Prop :=
  service.store.place = (tree.find service.store.path).toOption

theorem sees_of_openedService (h : openedService setting i config tree = .ok service) :
    Sees (withCache setting i config tree) service ∧
      service.store.path = config.filtering.storageDir i.workDir := by
  obtain ⟨-, -, hstore⟩ := openedService_eq_ok h
  rw [Sees, hstore]
  exact ⟨rfl, rfl⟩

theorem leadsTo_of_sees {node : Node} (hsees : Sees tree service)
    (hplace : service.store.place = some node) : tree.LeadsTo service.store.path node := by
  rw [hsees] at hplace
  refine FileTree.leadsTo_of_find ?_
  cases hfind : tree.find service.store.path with
  | error e => simp [hfind, Except.toOption] at hplace
  | ok found =>
    rw [hfind] at hplace
    cases hplace
    rfl

/-- What putting the cache directory back changes: at most one cached file is gone. -/
structure CacheKept (path : String) (tree after : FileTree) (lost : List String → Prop) : Prop where
  working : after.working = tree.working
  preserves : Preserves lost tree.root after.root
  gone : ∀ names, lost names → ∀ node, after.root.descend names ≠ .ok node
  cached : ∀ names, lost names → ∃ id, names = tree.chainOf path ++ [Store.fileName id]

theorem cacheKept_refl (path : String) (tree : FileTree) :
    CacheKept path tree tree (fun _ => False) :=
  ⟨rfl, .refl tree.root, fun _ h => h.elim, fun _ h => h.elim⟩

theorem cacheKept_same (hsees : Sees tree service) :
    CacheKept service.store.path tree (keptCache tree service) (fun _ => False) := by
  unfold keptCache
  cases hplace : service.store.place with
  | none => exact cacheKept_refl _ tree
  | some node =>
    obtain ⟨hworking, hkeeps⟩ :=
      FileTree.preserves_replace (leadsTo_of_sees hsees hplace) (Preserves.refl node)
    exact ⟨hworking, hkeeps.congr (by simp), fun _ h => h.elim, fun _ h => h.elim⟩

theorem cacheKept_erase {after : Service} (hsees : Sees tree service) {id : FilterId}
    {content : Bytes} {t : Instant}
    (hfile : service.store.entry (Store.fileName id) = .ok (.file content t))
    (herase : after.store = service.store.erase (Store.fileName id)) :
    CacheKept service.store.path tree (keptCache tree after)
      (· = tree.chainOf service.store.path ++ [Store.fileName id]) := by
  obtain ⟨entries, modified, hplace⟩ := Store.isOpen_of_entry hfile
  have hleads := leadsTo_of_sees hsees hplace
  have hplace' : after.store.place =
      some (.directory (Entries.erase entries (Store.fileName id)) modified) := by
    rw [herase, Store.erase, Store.mapEntries, hplace]
  have hpath : after.store.path = service.store.path := by
    rw [herase, Store.erase, Store.mapEntries, hplace]
  have hchild : (Node.directory entries modified).child (Store.fileName id) =
      .ok (.file content t) := by
    simpa [Store.entry, hplace] using hfile
  -- only the end of the chain is lost, and it is a file
  have hentries : Preserves (· = [Store.fileName id]) (.directory entries modified)
      (.directory (Entries.erase entries (Store.fileName id)) modified) := by
    refine Preserves.of_entries (fun other hother => Entries.lookup_erase_of_ne hother entries) ?_
    intro found hfound
    rw [(Node.lookup_of_child hchild).2] at hfound
    cases hfound
    rfl
  have hkept : keptCache tree after = tree.replace service.store.path
      (.directory (Entries.erase entries (Store.fileName id)) modified) := by
    rw [keptCache, hplace', hpath]
  obtain ⟨hworking, hkeeps⟩ := FileTree.preserves_replace hleads hentries
  rw [hkept]
  refine ⟨hworking, hkeeps.congr (by simp), ?_, ?_⟩
  · rintro _ rfl node hnode
    rw [FileTree.descend_replace hleads] at hnode
    obtain ⟨found, hfound, -⟩ := Node.child_of_descend_cons hnode
    have hlookup := (Node.lookup_of_child hfound).2
    rw [Entries.lookup_erase_self] at hlookup
    cases hlookup
  · rintro _ rfl
    exact ⟨id, rfl⟩

/-- The tree after a command, before the configuration is saved. -/
theorem exists_cacheKept (hsees : Sees tree service) (command : Command) :
    ∃ lost, CacheKept service.store.path tree
      (editedTree tree (edited service command).1 command) lost := by
  cases command with
  | remove url =>
    rcases service.removeFilter_store url with hsame | ⟨f, content, t, hfile, herase⟩
    · have hagain : Sees tree (service.removeFilter Faults.none url).1 := by
        rw [Sees, hsame]
        exact hsees
      have hkept := cacheKept_same hagain
      rw [hsame] at hkept
      exact ⟨_, hkept⟩
    · exact ⟨_, cacheKept_erase hsees hfile herase⟩
  | _ => exact ⟨_, cacheKept_refl _ tree⟩

/-- A configuration file is kept, or it was a cached file and is gone. -/
theorem CacheKept.stored {path : String} {after : FileTree} {lost : List String → Prop}
    {c : Config} {configPath : String} (h : CacheKept path tree after lost)
    (hstored : Config.IsStored tree configPath c) :
    Config.IsStored after configPath c ∨
      ((∃ id, tree.chainOf configPath = tree.chainOf path ++ [Store.fileName id]) ∧
        after.exists? configPath = false) := by
  by_cases hlost : lost (tree.chainOf configPath)
  · exact .inr ⟨h.cached _ hlost, FileTree.not_exists_of_missing h.working (h.gone _ hlost)⟩
  · exact .inl (hstored.of_preserves h.working h.preserves hlost)

end Session

end FilterLists
