import FilterLists.Proofs.Config.Document

/-! A written configuration is as good as the one that it was written from, contents aside. -/
namespace FilterLists.Config.Document

variable {c d : Config}

def record (f : Filter) : FilterId × String × String × Bool :=
  (f.id, f.url, f.name, f.enabled)

theorem record_persisted (f : Filter) : record f.persisted = record f := rfl

/-- The contents of filters leave no trace in a file. -/
theorem write_persisted (c : Config) : write c.persisted = write c := by
  have hfilters : filtersLines (c.filtering.filters.map Filter.persisted) =
      filtersLines c.filtering.filters := by
    cases c.filtering.filters with
    | nil => rfl
    | cons f fs =>
      show ((f :: fs).map Filter.persisted).flatMap filterLines = (f :: fs).flatMap filterLines
      rw [List.flatMap_map]
      rfl
  unfold write filteringLines Config.persisted
  simp only [hfilters]

/-- Two configurations are written alike only when they differ in contents at most. -/
theorem write_eq_iff : write c = write d ↔ c.persisted = d.persisted := by
  constructor
  · intro h
    have hread : some c.persisted = some d.persisted := by
      rw [← read?_write c, ← read?_write d, h]
    exact Option.some.inj hread
  · intro h
    rw [← write_persisted c, ← write_persisted d, h]

/-- Every configuration can be written, as a TOML document of all its settings, and read back. The
settings are the same, and so are the subscriptions and their order; nothing is known of their
contents. -/
theorem settings_of_written (c : Config) :
    Toml.read? (write c).toList = some (members c) ∧
    ∃ d, read? (write c) = some d ∧ d.logging = c.logging ∧
      { d.filtering with filters := [] } = { c.filtering with filters := [] } ∧
      d.filtering.filters.map record = c.filtering.filters.map record ∧
      ∀ f ∈ d.filtering.filters,
        f.ruleCount = 0 ∧ f.lastUpdated = none ∧ f.checksum = none ∧ f.content = none := by
  refine ⟨toml_read?_write c, c.persisted, read?_write c, rfl, rfl, ?_, ?_⟩
  · show (c.filtering.filters.map Filter.persisted).map record = c.filtering.filters.map record
    rw [List.map_map]
    exact List.map_congr_left fun f _ => record_persisted f
  · intro f hf
    obtain ⟨kept, -, rfl⟩ := List.mem_map.mp hf
    exact ⟨rfl, rfl, rfl, rfl⟩

end FilterLists.Config.Document
