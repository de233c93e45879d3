import FilterLists.Proofs.Registry.Update
import FilterLists.RuleSet

/-! Registries up to the times of their filters. The rules of a registry do not depend on the times,
and a merge that counts no new content changes nothing else. -/
namespace FilterLists

def Filter.undated (f : Filter) : Filter :=
  { f with lastUpdated := none }

def Registry.undated (r : Registry) : Registry :=
  { r with filters := r.filters.map Filter.undated }

namespace RuleSet

theorem compile_map_undated (filters : List Filter) :
    compile (filters.map Filter.undated) = compile filters := by
  rw [compile, compile, List.foldlM_map]
  rfl

theorem loaded_undated (r : Registry) : r.undated.loaded = r.loaded.map Filter.undated := by
  unfold Registry.loaded Registry.undated
  rw [List.filter_map]
  rfl

theorem ofRegistry_undated (r : Registry) : ofRegistry r.undated = ofRegistry r := by
  calc
    ofRegistry r.undated = compile (r.userFilter :: r.loaded.map Filter.undated) := by
      rw [ofRegistry, loaded_undated]
      rfl
    _ = compile ((r.userFilter :: r.loaded).map Filter.undated) := rfl
    _ = ofRegistry r := compile_map_undated _

end RuleSet

namespace Registry

theorem undated_takeOver {fresh : Refreshed} {live : Filter}
    (h : (fresh.changed && live.enabled) = false) :
    (takeOver fresh live).undated = live.undated := by
  simp [takeOver, h, Filter.undated]

theorem le_mergeFrom (r : Registry) (n : Nat) (results : List Refreshed) :
    n ≤ (r.mergeFrom n results).2 := by
  induction results generalizing r n with
  | nil => exact Nat.le_refl n
  | cons fresh rest ih =>
    have hrest := ih (r.mergeOne fresh).1 (if (r.mergeOne fresh).2 then n + 1 else n)
    have hstep : n ≤ if (r.mergeOne fresh).2 then n + 1 else n := by
      split <;> omega
    exact hstep.trans hrest

theorem undated_mergeOne {r : Registry} {fresh : Refreshed} (h : (r.mergeOne fresh).2 = false) :
    (r.mergeOne fresh).1.undated = r.undated := by
  obtain ⟨hid, hrules⟩ := mergeOne_frame r fresh
  have hfilters :
      (r.mergeOne fresh).1.filters.map Filter.undated = r.filters.map Filter.undated := by
    rw [mergeOne_filters]
    refine map_modifyFirst (fun live hfind => undated_takeOver ?_)
    simpa [mergeOne, hfind] using h
  simp only [undated, hfilters, hid, hrules]

/-- Where no filter got new content, only times have changed. -/
theorem undated_mergeFrom {r : Registry} {n : Nat} {results : List Refreshed}
    (h : (r.mergeFrom n results).2 = n) : (r.mergeFrom n results).1.undated = r.undated := by
  induction results generalizing r with
  | nil => rfl
  | cons fresh rest ih =>
    simp only [mergeFrom] at h ⊢
    cases hone : (r.mergeOne fresh).2 with
    | true =>
      have hle := le_mergeFrom (r.mergeOne fresh).1 (n + 1) rest
      simp only [hone, if_true] at h
      omega
    | false =>
      simp only [hone, Bool.false_eq_true, if_false] at h ⊢
      exact (ih h).trans (undated_mergeOne hone)

end Registry

end FilterLists
