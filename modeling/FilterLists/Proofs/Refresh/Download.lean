import Mathlib
import FilterLists.Refresh

/-! What becomes of a working copy before it is written: it is prepared and downloaded, and stays a
copy of its filter. -/
namespace FilterLists

namespace Fetch
variable {reply : Reply} {f fetched : Filter} {changed : Bool}

/-- A download that is not refused applies some body. -/
theorem apply_cases (h : Fetch.apply reply f = .ok (fetched, changed)) :
    ∃ body, f.applyFetched body = (fetched, changed) := by
  unfold Fetch.apply at h
  split at h
  · cases h
  · split at h
    · cases h
    · split at h
      · cases h
      · split at h
        · cases h
        · exact ⟨_, Except.ok.inj h⟩

theorem apply_subscription (h : Fetch.apply reply f = .ok (fetched, changed)) :
    fetched.id = f.id ∧ fetched.url = f.url := by
  obtain ⟨body, hbody⟩ := apply_cases h
  unfold Filter.applyFetched at hbody
  split at hbody
  · cases hbody
    exact ⟨rfl, rfl⟩
  · cases hbody
    exact ⟨rfl, rfl⟩

end Fetch

namespace Refresh

theorem prepare_subscription (s : Store) (faults : Faults) (f : Filter) :
    (prepare s faults f).id = f.id ∧ (prepare s faults f).url = f.url := by
  unfold prepare
  split <;> exact ⟨rfl, rfl⟩

theorem prepare_name (s : Store) (faults : Faults) (f : Filter) :
    (prepare s faults f).name = f.name := by
  unfold prepare
  split <;> rfl

end Refresh

end FilterLists
