import FilterLists.Proofs.Record
import FilterLists.Proofs.Refresh.Persist

/-! What one call on the cache can do. A call that fails leaves its record and every cached file as
they were, and no call reaches the file of another filter. -/
namespace FilterLists

namespace Store
variable {s : Store} {id : FilterId}

/-- Looking for the cached file finds that it is not there: the directory is missing or has no such
entry, or the device says so. -/
def LacksFile (s : Store) (fault : Option IoError) (id : FilterId) : Prop :=
  match fault with
  | some e => e = .notFound
  | none => s.place = none ∨
      ∃ entries t, s.place = some (.directory entries t) ∧ entries.lookup (fileName id) = none

theorem cached_eq_notFound_iff : s.cached id = .error .notFound ↔ s.LacksFile none id := by
  have hfits : ¬ Path.maxNameBytes < (fileName id).utf8ByteSize :=
    Nat.not_lt.mpr (utf8ByteSize_fileName_le id)
  unfold cached entry LacksFile
  cases hplace : s.place with
  | none => simp
  | some node =>
    cases node with
    | file content t => simp [Node.child]
    | directory entries t =>
      simp only [Node.child, if_neg hfits]
      constructor
      · intro h
        cases hfound : entries.lookup (fileName id) with
        | some found => simp [hfound] at h
        | none => exact .inr ⟨entries, t, rfl, hfound⟩
      · rintro (h | ⟨found, t', heq, hnone⟩)
        · cases h
        · cases heq
          rw [hnone]

theorem lookup_eq_notFound_iff {fault : Option IoError} :
    unlessRefused fault (s.cached id) = .error .notFound ↔ s.LacksFile fault id := by
  cases fault with
  | none => exact cached_eq_notFound_iff
  | some e => simp [unlessRefused, LacksFile]

end Store

namespace StoreOutcome
variable {f : Filter} {answer : Store × Except Error Filter}

theorem ofResult_store : (ofResult f answer).store = answer.1 := by
  obtain ⟨store, result⟩ := answer
  cases result <;> rfl

theorem ofResult_eq_error_iff {e : Error} :
    (ofResult f answer).result = .error e ↔ answer.2 = .error e := by
  obtain ⟨store, result⟩ := answer
  cases result with
  | ok changed => simp [ofResult]
  | error cause => simp [ofResult]

end StoreOutcome

namespace StoreCall
variable (s : Store) (f : Filter) (faults : Faults) (now : Instant)

/-- A save caches the content of its record, or leaves the cached files and the record alone. -/
theorem run_save_cases :
    (∃ done, (⟨.save, f, faults, now⟩ : StoreCall).run s =
        { store := done
          filter := { f with lastUpdated := Store.savedAt faults now }
          result := .ok () } ∧
      done.cached f.id = .ok (.file (f.content.getD []) now) ∧
      ∀ id, id ≠ f.id → done.cached id = s.cached id) ∨
    ∃ stopped e, (⟨.save, f, faults, now⟩ : StoreCall).run s =
        { store := stopped, filter := f, result := .error e } ∧
      ∀ id, stopped.cached id = s.cached id := by
  rw [run_save]
  rcases s.save_cases faults now f with
    ⟨-, done, heq, hfile, hframe⟩ | ⟨-, stopped, e, heq, hframe⟩
  · exact .inl ⟨done, by rw [heq]; rfl, hfile, hframe⟩
  · exact .inr ⟨stopped, e, by rw [heq]; rfl, hframe⟩

/-- A touch marks the cached file and the record, or changes nothing at all. -/
theorem run_touch_cases :
    (∃ content t, s.cached f.id = .ok (.file content t) ∧
      (⟨.touch, f, faults, now⟩ : StoreCall).run s =
        { store := s.put (Store.fileName f.id) (.file content now)
          filter := { f with lastUpdated := some now }
          result := .ok () }) ∨
    ∃ e, (⟨.touch, f, faults, now⟩ : StoreCall).run s =
      { store := s, filter := f, result := .error e } := by
  rw [run_touch]
  rcases s.touch_cases faults now f with ⟨content, t, hfile, -, heq⟩ | ⟨e, heq⟩
  · exact .inl ⟨content, t, hfile, by rw [heq]; rfl⟩
  · exact .inr ⟨e, by rw [heq]; rfl⟩

variable {s}

/-- No call reaches the file of another filter. -/
theorem run_cached_of_ne {c : StoreCall} {id : FilterId} (h : id ≠ c.filter.id) :
    (c.run s).store.cached id = s.cached id := by
  obtain ⟨operation, f, faults, now⟩ := c
  cases operation with
  | save =>
    rcases run_save_cases s f faults now with ⟨done, heq, -, hframe⟩ | ⟨stopped, e, heq, hframe⟩
    · rw [heq]
      exact hframe id h
    · rw [heq]
      exact hframe id
  | load => rw [run_load, StoreOutcome.ofResult_store]
  | touch =>
    rw [run_touch, StoreOutcome.ofResult_store]
    exact (s.touch_cached faults now f).2 id h
  | remove =>
    rw [run_remove]
    exact s.remove_cached_of_ne faults f h

/-- A call that fails leaves the record and all cached files as they were. -/
theorem run_failed {c : StoreCall} {e : Error} (h : (c.run s).result = .error e) :
    (c.run s).filter = c.filter ∧ ∀ id, (c.run s).store.cached id = s.cached id := by
  obtain ⟨operation, f, faults, now⟩ := c
  cases operation with
  | save =>
    rcases run_save_cases s f faults now with ⟨done, heq, -, -⟩ | ⟨stopped, cause, heq, hframe⟩
    · rw [heq] at h
      cases h
    · rw [heq]
      exact ⟨rfl, hframe⟩
  | load =>
    rw [run_load] at h ⊢
    rw [StoreOutcome.ofResult_eq_error_iff] at h
    rw [show s.load faults f = .error e from h]
    exact ⟨rfl, fun id => rfl⟩
  | touch =>
    rcases run_touch_cases s f faults now with ⟨content, t, -, heq⟩ | ⟨cause, heq⟩
    · rw [heq] at h
      cases h
    · rw [heq]
      exact ⟨rfl, fun id => rfl⟩
  | remove =>
    rw [run_remove] at h ⊢
    refine ⟨rfl, fun id => ?_⟩
    unfold Store.remove at h ⊢
    split at h
    · cases h
    · rfl
    · cases h
    · rfl

end StoreCall

end FilterLists
