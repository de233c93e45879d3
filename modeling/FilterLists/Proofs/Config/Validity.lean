import FilterLists.Proofs.Config.File

/-!
What makes a configuration valid: the settings, which commands leave as they are, and the ids of the
subscriptions one by one. Names and contents do not matter.
-/
namespace FilterLists.Config
variable {c : Config} {filters : List Filter}

/-- The settings are valid whatever subscriptions there are. -/
structure HasValidSettings (c : Config) : Prop where
  interval : c.filtering.updateIntervalHours ≠ 0
  tick : c.filtering.refreshTickSecs ≠ 0
  timeout : c.filtering.fetchTimeoutSecs ≠ 0
  fetches : c.filtering.maxConcurrentFetches ≠ 0
  dataDir : c.filtering.dataDir ≠ ""
  filterDir : c.filtering.filterDir ≠ ""

theorem hasValidSettings_default : HasValidSettings {} := by
  constructor <;> decide

theorem HasValidSettings.withFilters (h : c.HasValidSettings) (filters : List Filter) :
    (c.withFilters filters).HasValidSettings :=
  ⟨h.interval, h.tick, h.timeout, h.fetches, h.dataDir, h.filterDir⟩

theorem hasValidSettings_of_validate (h : c.validate = .ok ()) : c.HasValidSettings := by
  simp only [validate] at h
  split_ifs at h with hinterval htick htimeout hfetches hdirectory
  · split at h <;> cases h
  · obtain ⟨hdata, hfilter⟩ := not_or.mp hdirectory
    exact ⟨hinterval, htick, htimeout, hfetches, hdata, hfilter⟩

/-- With valid settings the first invalid id decides. -/
theorem HasValidSettings.validate_eq (h : c.HasValidSettings) :
    c.validate =
      match c.filtering.filters.find? isInvalidId with
      | some bad => .error (.invalidId bad.url bad.id)
      | none => .ok () := by
  cases hfind : c.filtering.filters.find? isInvalidId <;>
    simp only [validate, hfind, h.interval, h.tick, h.timeout, h.fetches, h.dataDir, h.filterDir,
      if_false, or_self]

theorem isInvalidId_eq_false_iff {f : Filter} :
    isInvalidId f = false ↔ 0 ≤ f.id ∧ f.id ≠ Int64.maxValue := by
  simp [isInvalidId]

theorem validate_eq_ok_iff :
    c.validate = .ok () ↔
      c.HasValidSettings ∧ ∀ f ∈ c.filtering.filters, 0 ≤ f.id ∧ f.id ≠ Int64.maxValue := by
  have hids : c.filtering.filters.find? isInvalidId = none ↔
      ∀ f ∈ c.filtering.filters, 0 ≤ f.id ∧ f.id ≠ Int64.maxValue := by
    simp only [List.find?_eq_none, Bool.not_eq_true, isInvalidId_eq_false_iff]
  constructor
  · intro h
    have hsettings := hasValidSettings_of_validate h
    rw [hsettings.validate_eq] at h
    refine ⟨hsettings, hids.mp ?_⟩
    split at h
    · cases h
    · assumption
  · rintro ⟨hsettings, hvalid⟩
    rw [hsettings.validate_eq, hids.mpr hvalid]

/-- Where no id is negative, the only fault left is that of the last id. -/
theorem HasValidSettings.validate_cases (h : c.HasValidSettings)
    (hnonneg : ∀ f ∈ c.filtering.filters, 0 ≤ f.id) :
    c.validate = .ok () ∨ ∃ url, c.validate = .error (.invalidId url Int64.maxValue) := by
  rw [h.validate_eq]
  split
  · next bad hbad =>
    right
    have hinvalid := List.find?_some hbad
    simp only [isInvalidId, Bool.or_eq_true, decide_eq_true_eq] at hinvalid
    have hlast : bad.id = Int64.maxValue :=
      hinvalid.resolve_left (Int64.not_lt.mpr (hnonneg bad (List.mem_of_find?_eq_some hbad)))
    exact ⟨bad.url, by rw [hlast]⟩
  · exact .inl rfl

theorem validate_map {g : Filter → Filter} (hid : ∀ f, (g f).id = f.id)
    (hurl : ∀ f, (g f).url = f.url) (c : Config) :
    (Config.validate
      { c with filtering := { c.filtering with filters := c.filtering.filters.map g } }) =
        c.validate := by
  have hsame : isInvalidId ∘ g = isInvalidId := by
    funext f
    simp [isInvalidId, hid]
  simp only [validate, List.find?_map, hsame]
  cases c.filtering.filters.find? isInvalidId with
  | none => rfl
  | some bad => simp [hid, hurl]

theorem validate_persisted (c : Config) : c.persisted.validate = c.validate :=
  validate_map (g := Filter.persisted) (fun _ => rfl) (fun _ => rfl) c

/-- Overrides only matter for the time between two ticks. -/
theorem validate_applyOverrides {o : Overrides} (h : c.validate = .ok ())
    (htick : ∀ tick ∈ o.refreshTickSecs, tick ≠ 0) : (c.applyOverrides o).validate = .ok () := by
  obtain ⟨hsettings, hids⟩ := validate_eq_ok_iff.mp h
  refine validate_eq_ok_iff.mpr ⟨⟨hsettings.interval, ?_, hsettings.timeout, hsettings.fetches,
    hsettings.dataDir, hsettings.filterDir⟩, hids⟩
  cases hgiven : o.refreshTickSecs with
  | none => simpa [applyOverrides, hgiven] using hsettings.tick
  | some tick => simpa [applyOverrides, hgiven] using htick tick hgiven

end FilterLists.Config
