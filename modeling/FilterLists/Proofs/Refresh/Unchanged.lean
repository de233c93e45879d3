import FilterLists.Proofs.Refresh.Copies

/-! The working copies that may come out unchanged. Such a copy has kept the checksum that its
filter had when the cycle began, and at the end the filter takes over its date and nothing else. -/
namespace FilterLists

def Task.mayBeUnchanged : Task → Bool
  | .fetching _ f => f.checksum.isSome
  | .fetched _ _ changed => !changed

namespace Cycle
variable {c d : Cycle} {P : FilterId → String → Prop}

def unchangedCopies (c : Cycle) : List Filter :=
  c.waiting.filter (·.checksum.isSome) ++
    ((c.active.filter Task.mayBeUnchanged).map Task.filter ++
      (c.results.filter (fun fresh => !fresh.changed)).map Refreshed.filter)

theorem mem_unchangedCopies {f : Filter} :
    f ∈ c.unchangedCopies ↔ (f ∈ c.waiting ∧ f.checksum.isSome = true) ∨
      (∃ task ∈ c.active, task.mayBeUnchanged = true ∧ task.filter = f) ∨
      ∃ fresh ∈ c.results, fresh.changed = false ∧ fresh.filter = f := by
  simp only [unchangedCopies, List.mem_append, List.mem_filter, List.mem_map, Bool.not_eq_true',
    and_assoc]

/-- A cycle begins with the checksums that its filters have then. -/
theorem exists_of_mem_unchangedCopies_begin {s : Service} {policy : RefreshPolicy} {now : Instant}
    {force : Bool} {g : Filter} (hg : g ∈ (begin s policy now force).unchangedCopies) :
    ∃ f ∈ s.registry.filters, f.checksum.isSome = true ∧ f.id = g.id ∧ f.url = g.url := by
  obtain ⟨hwaiting, hsum⟩ : g ∈ Refresh.candidates s policy now force ∧ g.checksum.isSome = true := by
    simpa [begin, unchangedCopies] using hg
  rw [Refresh.candidates_eq] at hwaiting
  obtain ⟨f, hf, rfl⟩ := List.mem_map.mp hwaiting
  exact ⟨f, (List.mem_filter.mp hf).1, hsum, rfl, rfl⟩

/-- A copy that is prepared keeps its checksum or loses it. -/
theorem checksum_of_prepare {s : Store} {faults : Faults} {f : Filter}
    (h : (Refresh.prepare s faults f).checksum.isSome = true) : f.checksum.isSome = true := by
  unfold Refresh.prepare at h
  split at h
  · cases h
  · exact h

theorem forall_unchangedCopies_launch {s : Store} {faults : Faults} {limit : Nat} {g : Filter}
    (h : ∀ f ∈ c.unchangedCopies, P f.id f.url) (hl : c.launch? s faults limit = some (d, g)) :
    ∀ f ∈ d.unchangedCopies, P f.id f.url := by
  obtain ⟨first, rest, hwaiting, rfl, rfl⟩ := launch?_cases hl
  intro f hf
  rcases mem_unchangedCopies.mp hf with ⟨hwait, hsum⟩ | ⟨task, htask, hmay, rfl⟩ | hresult
  · have hold : f ∈ c.waiting := by
      rw [hwaiting]
      exact List.mem_cons_of_mem first hwait
    exact h f (mem_unchangedCopies.mpr (.inl ⟨hold, hsum⟩))
  · rcases List.mem_append.mp htask with hold | hnew
    · exact h _ (mem_unchangedCopies.mpr (.inr (.inl ⟨task, hold, hmay, rfl⟩)))
    · obtain rfl := List.mem_singleton.mp hnew
      obtain ⟨hid, hurl⟩ := Refresh.prepare_subscription s faults first
      have hfirst := h first (mem_unchangedCopies.mpr
        (.inl ⟨by simp [hwaiting], checksum_of_prepare hmay⟩))
      simp only [Task.filter, hid, hurl]
      exact hfirst
  · exact h f (mem_unchangedCopies.mpr (.inr (.inr hresult)))

/-- Only the known checksum makes a download come out unchanged. -/
theorem checksum_of_apply {reply : Reply} {f g : Filter}
    (h : Fetch.apply reply f = .ok (g, false)) : f.checksum.isSome = true := by
  obtain ⟨body, hbody⟩ := Fetch.apply_cases h
  unfold Filter.applyFetched at hbody
  split_ifs at hbody with hsum
  · rw [hsum]
    rfl
  · cases hbody

theorem forall_unchangedCopies_receive (h : ∀ f ∈ c.unchangedCopies, P f.id f.url) (ticket : Nat)
    (reply : Reply) : ∀ f ∈ (c.receive ticket reply).unchangedCopies, P f.id f.url := by
  intro f hf
  rcases mem_unchangedCopies.mp hf with hwaiting | ⟨task, htask, hmay, rfl⟩ | hresult
  · exact h f (mem_unchangedCopies.mpr (.inl hwaiting))
  · rcases mem_receive htask with hold | ⟨e, g, changed, he, happly, rfl⟩
    · exact h _ (mem_unchangedCopies.mpr (.inr (.inl ⟨task, hold, hmay, rfl⟩)))
    · obtain rfl : changed = false := by simpa [Task.mayBeUnchanged] using hmay
      obtain ⟨hid, hurl⟩ := Fetch.apply_subscription happly
      have he' := h e (mem_unchangedCopies.mpr
        (.inr (.inl ⟨.fetching ticket e, he, checksum_of_apply happly, rfl⟩)))
      simp only [Task.filter, hid, hurl]
      exact he'
  · exact h f (mem_unchangedCopies.mpr (.inr (.inr hresult)))

theorem forall_unchangedCopies_persist (h : ∀ f ∈ c.unchangedCopies, P f.id f.url) (s : Store)
    (faults : Faults) (now : Instant) (ticket : Nat) :
    ∀ f ∈ (c.persist s faults now ticket).2.unchangedCopies, P f.id f.url := by
  rcases c.persist_cases s faults now ticket with ⟨g, changed, hg, heq⟩ | heq
  · rw [heq]
    intro f hf
    rcases mem_unchangedCopies.mp hf with hwaiting | ⟨task, htask, hmay, rfl⟩ |
      ⟨fresh, hfresh, hchanged, rfl⟩
    · exact h f (mem_unchangedCopies.mpr (.inl hwaiting))
    · exact h _ (mem_unchangedCopies.mpr
        (.inr (.inl ⟨task, (List.mem_filter.mp htask).1, hmay, rfl⟩)))
    · rcases List.mem_append.mp hfresh with hold | hnew
      · exact h _ (mem_unchangedCopies.mpr (.inr (.inr ⟨fresh, hold, hchanged, rfl⟩)))
      · obtain ⟨t, rfl⟩ := Refresh.persist_outcome (Option.mem_toList.mp hnew)
        obtain rfl : changed = false := hchanged
        exact h g (mem_unchangedCopies.mpr (.inr (.inl ⟨.fetched ticket g false, hg, rfl, rfl⟩)))
  · rw [heq]
    exact h

end Cycle

end FilterLists
