import FilterLists.Config.File
import FilterLists.Proofs.Config.Document
import FilterLists.Proofs.FileTree.Operations
import FilterLists.Proofs.Text.Utf8

/-!
Configuration files on a file tree. What is saved is loaded again, and a file that stays as it was
loads as before.
-/
namespace FilterLists.Config

open Node (Preserves)

variable {tree after : FileTree} {path : String} {c : Config} {now : Instant}

/-- A file at a path holds a configuration. -/
structure IsStored (tree : FileTree) (path : String) (c : Config) : Prop where
  present : tree.exists? path = true
  loads : load tree (some path) {} = .ok c

theorem applyOverrides_none (c : Config) : c.applyOverrides {} = c := rfl

/-- Overrides change what a file holds after it has been read. -/
theorem load_overrides (tree : FileTree) (path : String) (o : Overrides) :
    load tree (some path) o = (load tree (some path) {}).map (·.applyOverrides o) := by
  simp only [load]
  split
  · cases readText tree path with
    | error e => rfl
    | ok text =>
      simp only [bind, Except.bind]
      cases Document.read? text <;> rfl
  · rfl

theorem load_of_missing (h : tree.exists? path = false) :
    load tree (some path) {} = .ok {} := by
  simp [load, h, applyOverrides_none]

theorem isStored_of_read {content : Bytes} {text : List Char} (hread : tree.read path = .ok content)
    (htext : Utf8.decode? content = some text)
    (hdocument : Document.read? (String.ofList text) = some c) : IsStored tree path c := by
  obtain ⟨t, hleads⟩ := FileTree.read_eq_ok hread
  refine ⟨hleads.exists, ?_⟩
  simp [load, hleads.exists, readText, hread, htext, hdocument, applyOverrides_none, bind,
    Except.bind]

theorem isStored_of_text (text : String) (hread : tree.read path = .ok (bytesOf text))
    (hdocument : Document.read? text = some c) : IsStored tree path c :=
  isStored_of_read hread (Utf8.decode?_encode _) (by rwa [String.ofList_toList])

theorem IsStored.read (h : IsStored tree path c) :
    ∃ content text, tree.read path = .ok content ∧ Utf8.decode? content = some text ∧
      Document.read? (String.ofList text) = some c := by
  have hloads := h.loads
  simp only [load, h.present, if_true, readText, bind, Except.bind] at hloads
  cases hread : tree.read path with
  | error e => simp [hread] at hloads
  | ok content =>
    simp only [hread] at hloads
    cases htext : Utf8.decode? content with
    | none => simp [htext] at hloads
    | some text =>
      simp only [htext] at hloads
      cases hdocument : Document.read? (String.ofList text) with
      | none => simp [hdocument] at hloads
      | some d =>
        simp only [hdocument, applyOverrides_none, Except.ok.injEq] at hloads
        exact ⟨content, text, rfl, htext, by rw [hdocument, hloads]⟩

/-- A file holds no contents of filters. -/
theorem IsStored.persisted_eq (h : IsStored tree path c) : c.persisted = c := by
  obtain ⟨content, text, -, -, hdocument⟩ := h.read
  exact Document.persisted_of_read? hdocument

/-- A file that a change does not reach loads as before. -/
theorem IsStored.of_preserves {lost : List String → Prop} (h : IsStored tree path c)
    (hworking : after.working = tree.working) (hkeeps : Preserves lost tree.root after.root)
    (hlost : ¬ lost (tree.chainOf path)) : IsStored after path c := by
  obtain ⟨content, text, hread, htext, hdocument⟩ := h.read
  exact isStored_of_read (FileTree.read_of_preserves hread hworking hkeeps hlost) htext hdocument

theorem save_eq_ok (h : c.save tree path now = .ok after) :
    IsStored after path c.persisted ∧ after.working = tree.working ∧
      Preserves (· = tree.chainOf path) tree.root after.root := by
  rw [save] at h
  cases hwrite : tree.write path (bytesOf (Document.write c)) now with
  | error e => simp [hwrite, Except.mapError] at h
  | ok written =>
    simp only [hwrite, Except.mapError, Except.ok.injEq] at h
    subst h
    obtain ⟨hworking, hkeeps, hleads⟩ := FileTree.write_eq_ok hwrite
    refine ⟨isStored_of_read hleads.read (Utf8.decode?_encode _) ?_, hworking, hkeeps⟩
    rw [String.ofList_toList]
    exact Document.read?_write c

/-- A configuration can be saved where there is one. -/
theorem IsStored.save {d : Config} (h : IsStored tree path d) (c : Config) (now : Instant) :
    ∃ after, c.save tree path now = .ok after := by
  obtain ⟨content, text, hread, -, -⟩ := h.read
  obtain ⟨t, hleads⟩ := FileTree.read_eq_ok hread
  obtain ⟨after, hwrite⟩ := FileTree.write_of_leadsTo hleads (bytesOf (Document.write c)) now
  exact ⟨after, by simp [Config.save, hwrite, Except.mapError]⟩

def withFilters (c : Config) (filters : List Filter) : Config :=
  { c with filtering := { c.filtering with filters } }

theorem saveFilters_of_load (h : load tree (some path) {} = .ok c) (filters : List Filter)
    (now : Instant) : saveFilters tree path filters now = (c.withFilters filters).save tree path now := by
  simp [saveFilters, h, bind, Except.bind, withFilters]

theorem saveFilters_eq_ok {filters : List Filter}
    (h : saveFilters tree path filters now = .ok after) :
    ∃ settings : Config, IsStored after path (settings.withFilters filters).persisted := by
  cases hload : load tree (some path) {} with
  | error e => simp [saveFilters, hload, bind, Except.bind] at h
  | ok settings =>
    rw [saveFilters_of_load hload] at h
    exact ⟨settings, (save_eq_ok h).1⟩

def withNames (c : Config) (runtime : List Filter) : Config :=
  { c with filtering := (c.filtering.applyRuntimeNames runtime).1 }

theorem saveNames_of_load (h : load tree (some path) {} = .ok c) (runtime : List Filter)
    (now : Instant) :
    saveNames tree path runtime now =
      if (c.filtering.applyRuntimeNames runtime).2 = 0 then .ok tree
      else (c.withNames runtime).save tree path now := by
  simp [saveNames, h, bind, Except.bind, withNames]

/-- A name changes only to the one of a filter with the same id and URL. -/
theorem runtimeName_cases (runtime : List Filter) (f : Filter) :
    FilteringConfig.runtimeName runtime f = f.name ∨
      ∃ live ∈ runtime, live.id = f.id ∧ live.url = f.url ∧
        FilteringConfig.runtimeName runtime f = live.name := by
  unfold FilteringConfig.runtimeName
  cases hfind : runtime.find? (fun live => live.id = f.id && live.url = f.url) with
  | none => exact .inl rfl
  | some live =>
    have hsame := List.find?_some hfind
    simp only [Bool.and_eq_true, decide_eq_true_eq] at hsame
    exact .inr ⟨live, List.mem_of_find?_eq_some hfind, hsame.1, hsame.2, rfl⟩

/-- Names can be saved where there is a configuration. -/
theorem IsStored.saveNames (h : IsStored tree path c) (runtime : List Filter) (now : Instant) :
    ∃ after, saveNames tree path runtime now = .ok after ∧
      IsStored after path (c.withNames runtime) := by
  rw [saveNames_of_load h.loads]
  split
  · next hnone =>
    refine ⟨tree, rfl, ?_⟩
    have hsame : ∀ f ∈ c.filtering.filters,
        { f with name := FilteringConfig.runtimeName runtime f } = f := by
      intro f hf
      have hname := List.countP_eq_zero.mp hnone f hf
      simp only [ne_eq, decide_eq_true_eq, not_not] at hname
      rw [hname]
    have hkept : c.withNames runtime = c := by
      simp only [withNames, FilteringConfig.applyRuntimeNames, List.map_congr_left hsame,
        List.map_id']
    rw [hkept]
    exact h
  · obtain ⟨after, hsaved⟩ := h.save (c.withNames runtime) now
    refine ⟨after, hsaved, ?_⟩
    have hbare : (c.withNames runtime).persisted = c.withNames runtime := by
      have hfilters : c.filtering.filters.map Filter.persisted = c.filtering.filters :=
        congrArg (·.filtering.filters) h.persisted_eq
      have heach : ∀ f ∈ c.filtering.filters, f.persisted = f :=
        List.map_inj_left.mp (hfilters.trans (List.map_id _).symm)
      have hrenamed : (c.withNames runtime).filtering.filters.map Filter.persisted =
          (c.withNames runtime).filtering.filters := by
        simp only [withNames, FilteringConfig.applyRuntimeNames, List.map_map, List.map_inj_left]
        intro f hf
        exact congrArg (fun g => { g with name := FilteringConfig.runtimeName runtime f }) (heach f hf)
      simp only [persisted, hrenamed]
    exact hbare ▸ (save_eq_ok hsaved).1

end FilterLists.Config
