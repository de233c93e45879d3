import FilterLists.Refresh
import FilterLists.Proofs.Store.Effects

/-! How a working copy that is downloaded reaches the cache. Only its own cached file can change,
and the outcome is the working copy with a new date. -/
namespace FilterLists

namespace Store

/-- The content of a cached file stays, and its time changes where there is a file that may be
touched. -/
def touched (faults : Faults) (now : Instant) : Except IoError Node → Except IoError Node
  | .ok (.file content t) =>
    if (faults .touch).isNone then .ok (.file content now) else .ok (.file content t)
  | other => other

theorem touched_of_refused {faults : Faults} {e : IoError} (h : faults .touch = some e)
    (now : Instant) (found : Except IoError Node) : touched faults now found = found := by
  unfold touched
  split
  · simp [h]
  · rfl

theorem touch_cached (s : Store) (faults : Faults) (now : Instant) (f : Filter) :
    (s.touch faults now f).1.cached f.id = touched faults now (s.cached f.id) ∧
      ∀ id, id ≠ f.id → (s.touch faults now f).1.cached id = s.cached id := by
  unfold touch
  cases hfault : faults .touch with
  | some e => exact ⟨(touched_of_refused hfault now _).symm, fun id _ => rfl⟩
  | none =>
    cases hentry : s.entry (fileName f.id) with
    | error e => exact ⟨by simp [unlessRefused, cached, hentry, touched], fun id _ => rfl⟩
    | ok node =>
      cases node with
      | directory entries t =>
        exact ⟨by simp [unlessRefused, cached, hentry, touched], fun id _ => rfl⟩
      | file content t =>
        refine ⟨?_, fun id hid => s.cached_put_of_ne _ hid⟩
        have hput := (isOpen_of_entry hentry).entry_put_self (.file content now)
          (utf8ByteSize_fileName_le f.id)
        simpa [unlessRefused, cached, hentry, touched, hfault] using hput

end Store

namespace Refresh

theorem persist_changed (s : Store) (faults : Faults) (now : Instant) (f : Filter) :
    (s.accepts faults f = true ∧
      (persist s faults now f true).2 =
        some { filter := { f with lastUpdated := Store.savedAt faults now }, changed := true } ∧
      (persist s faults now f true).1.cached f.id = .ok (.file (f.content.getD []) now) ∧
      ∀ id, id ≠ f.id → (persist s faults now f true).1.cached id = s.cached id) ∨
    (s.accepts faults f = false ∧ (persist s faults now f true).2 = none ∧
      ∀ id, (persist s faults now f true).1.cached id = s.cached id) := by
  rcases s.save_cases faults now f with
    ⟨hgo, done, heq, hown, hframe⟩ | ⟨hstop, stopped, e, heq, hframe⟩
  · refine .inl ⟨hgo, ?_, ?_, ?_⟩ <;> simp only [persist, if_true, heq]
    · exact hown
    · exact hframe
  · refine .inr ⟨hstop, ?_, ?_⟩ <;> simp only [persist, if_true, heq]
    exact hframe

/-- New content whose save does not fail has an outcome and is in its file. -/
theorem persist_saved {s : Store} {faults : Faults} {now : Instant} {f : Filter}
    (h : ∃ saved, (s.save faults now f).2 = .ok saved) :
    (persist s faults now f true).2 =
        some { filter := { f with lastUpdated := Store.savedAt faults now }, changed := true } ∧
      (persist s faults now f true).1.cached f.id = .ok (.file (f.content.getD []) now) := by
  obtain ⟨saved, hsaved⟩ := h
  rcases s.save_cases faults now f with ⟨-, done, heq, hown, -⟩ | ⟨-, stopped, e, heq, -⟩
  · constructor <;> simp only [persist, if_true, heq]
    exact hown
  · rw [heq] at hsaved
    cases hsaved

theorem persist_unchanged (s : Store) (faults : Faults) (now : Instant) (f : Filter) :
    (persist s faults now f false).2 =
        some { filter := { f with lastUpdated := some now }, changed := false } ∧
      (persist s faults now f false).1.cached f.id = Store.touched faults now (s.cached f.id) ∧
      ∀ id, id ≠ f.id → (persist s faults now f false).1.cached id = s.cached id := by
  have htouch := s.touch_cached faults now f
  simp only [persist, Bool.false_eq_true, if_false]
  rcases s.touch_cases faults now f with ⟨content, t, _, _, heq⟩ | ⟨e, heq⟩
  · rw [heq] at htouch ⊢
    exact ⟨rfl, htouch⟩
  · rw [heq] at htouch ⊢
    exact ⟨rfl, htouch⟩

/-- The outcome is the working copy itself but for its date. -/
theorem persist_outcome {s : Store} {faults : Faults} {now : Instant} {f : Filter} {changed : Bool}
    {fresh : Refreshed} (h : (persist s faults now f changed).2 = some fresh) :
    ∃ t, fresh = { filter := { f with lastUpdated := t }, changed } := by
  cases changed with
  | true =>
    rcases persist_changed s faults now f with ⟨_, heq, _⟩ | ⟨_, heq, _⟩
    · exact ⟨_, Option.some.inj (h.symm.trans heq)⟩
    · cases h.symm.trans heq
  | false => exact ⟨_, Option.some.inj (h.symm.trans (persist_unchanged s faults now f).1)⟩

theorem persist_outcome_id (s : Store) (faults : Faults) (now : Instant) (f : Filter)
    (changed : Bool) : ∀ fresh ∈ (persist s faults now f changed).2, fresh.filter.id = f.id := by
  intro fresh hfresh
  obtain ⟨t, rfl⟩ := persist_outcome hfresh
  rfl

theorem persist_cached_of_ne (s : Store) (faults : Faults) (now : Instant) (f : Filter)
    (changed : Bool) {id : FilterId} (h : id ≠ f.id) :
    (persist s faults now f changed).1.cached id = s.cached id := by
  cases changed with
  | true =>
    rcases persist_changed s faults now f with ⟨_, _, _, hframe⟩ | ⟨_, _, hframe⟩
    · exact hframe id h
    · exact hframe id
  | false => exact (persist_unchanged s faults now f).2.2 id h

end Refresh

namespace Cycle

/-- A working copy that is not downloaded yet cannot be written; one that is leaves the cycle, and
its outcome joins the results. -/
theorem persist_cases (s : Store) (faults : Faults) (now : Instant) (c : Cycle) (ticket : Nat) :
    (∃ f changed, .fetched ticket f changed ∈ c.active ∧
      c.persist s faults now ticket =
        ((Refresh.persist s faults now f changed).1,
          { c with
            active := c.active.filter (fun task => task.ticket ≠ ticket)
            results := c.results ++ (Refresh.persist s faults now f changed).2.toList })) ∨
    c.persist s faults now ticket = (s, c) := by
  unfold persist
  cases hfind : c.active.find? (fun task => task.ticket = ticket) with
  | none => exact .inr rfl
  | some task =>
    cases task with
    | fetching started f => exact .inr rfl
    | fetched started f changed =>
      have hfound := List.find?_some hfind
      have hticket : started = ticket := of_decide_eq_true hfound
      subst hticket
      exact .inl ⟨f, changed, List.mem_of_find?_eq_some hfind, rfl⟩

end Cycle

end FilterLists
