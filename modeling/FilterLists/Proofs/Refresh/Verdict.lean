import FilterLists.Proofs.Refresh.Download
import FilterLists.Proofs.Refresh.Persist
import FilterLists.Proofs.Registry.Undated

/-! What the refresh of one filter comes to, without the times. It depends on the reply and on the
file of that filter alone, and so does what the refresh leaves in the file. -/
namespace FilterLists

def Refreshed.undated (fresh : Refreshed) : Refreshed :=
  { fresh with filter := fresh.filter.undated }

namespace Store

def contents (s : Store) (id : FilterId) : Except IoError Bytes :=
  s.read Faults.none (fileName id)

variable {s t : Store} {id : FilterId}

theorem contents_congr (h : s.cached id = t.cached id) : s.contents id = t.contents id := by
  unfold cached at h
  simp only [contents, read, h]

theorem contents_of_cached {content : Bytes} {modified : Instant}
    (h : s.cached id = .ok (.file content modified)) : s.contents id = .ok content := by
  unfold cached at h
  simp only [contents, read, h]
  rfl

theorem contents_touched {faults : Faults} {now : Instant}
    (h : t.cached id = touched faults now (s.cached id)) : t.contents id = s.contents id := by
  cases hfound : s.cached id with
  | error e => exact contents_congr (h.trans (by simp [hfound, touched]))
  | ok node =>
    cases node with
    | directory entries modified => exact contents_congr (h.trans (by simp [hfound, touched]))
    | file content modified =>
      have htouched : ∃ time, t.cached id = .ok (.file content time) := by
        rw [h, hfound, touched]
        split <;> exact ⟨_, rfl⟩
      obtain ⟨time, htime⟩ := htouched
      rw [contents_of_cached htime, contents_of_cached hfound]

theorem accepts_congr {faults : Faults} {f : Filter} (h : s.cached f.id = t.cached f.id) :
    s.accepts faults f = t.accepts faults f := by
  simp only [accepts, h]

end Store

namespace Refresh
variable {s t : Store} {faults : Faults} {reply : Reply} {f : Filter}

theorem prepare_congr (h : s.cached f.id = t.cached f.id) :
    prepare s faults f = prepare t faults f := by
  simp only [prepare, Store.lastModified_eq, h]

/-- The outcome of a refresh, without its time. -/
def verdict (s : Store) (faults : Faults) (reply : Reply) (f : Filter) : Option Refreshed :=
  match Fetch.apply reply (prepare s faults f) with
  | .error _ => none
  | .ok (fetched, changed) =>
    if changed && !s.accepts faults fetched then none
    else some { filter := fetched.undated, changed }

/-- What a refresh with this outcome leaves in the file of its filter. -/
def contentsAfter (s : Store) (id : FilterId) : Option Refreshed → Except IoError Bytes
  | some fresh =>
    if fresh.changed then .ok (fresh.filter.content.getD []) else s.contents id
  | none => s.contents id

theorem verdict_subscription {fresh : Refreshed} (h : verdict s faults reply f = some fresh) :
    fresh.filter.id = f.id ∧ fresh.filter.url = f.url := by
  unfold verdict at h
  cases happly : Fetch.apply reply (prepare s faults f) with
  | error e => simp [happly] at h
  | ok result =>
    obtain ⟨fetched, changed⟩ := result
    simp only [happly] at h
    obtain ⟨hid, hurl⟩ := Fetch.apply_subscription happly
    obtain ⟨hid', hurl'⟩ := prepare_subscription s faults f
    split_ifs at h
    cases h
    exact ⟨hid.trans hid', hurl.trans hurl'⟩

/-- A downloaded working copy that reaches a cache in which its file is still as it was comes to the
verdict on its filter. -/
theorem persist_verdict {fetched : Filter} {changed : Bool}
    (happly : Fetch.apply reply (prepare s faults f) = .ok (fetched, changed))
    (hcached : t.cached f.id = s.cached f.id) (now : Instant) :
    (persist t faults now fetched changed).2.map Refreshed.undated = verdict s faults reply f ∧
      (persist t faults now fetched changed).1.contents f.id =
        contentsAfter s f.id (verdict s faults reply f) ∧
      (verdict s faults reply f = none →
        (persist t faults now fetched changed).1.cached f.id = s.cached f.id) := by
  have hid : fetched.id = f.id :=
    (Fetch.apply_subscription happly).1.trans (prepare_subscription s faults f).1
  unfold verdict
  simp only [happly]
  cases changed with
  | true =>
    have haccepts : s.accepts faults fetched = t.accepts faults fetched :=
      Store.accepts_congr (by rw [hid, hcached])
    rw [haccepts]
    rcases persist_changed t faults now fetched with ⟨hgo, hout, hown, _⟩ | ⟨hstop, hout, hall⟩
    · rw [hid] at hown
      rw [hout, hgo, Store.contents_of_cached hown]
      exact ⟨rfl, rfl, fun h => by cases h⟩
    · rw [hout, hstop]
      have hsame := (hall f.id).trans hcached
      exact ⟨rfl, Store.contents_congr hsame, fun _ => hsame⟩
  | false =>
    obtain ⟨hout, hown, _⟩ := persist_unchanged t faults now fetched
    rw [hid, hcached] at hown
    rw [hout, Store.contents_touched hown]
    exact ⟨rfl, rfl, fun h => by cases h⟩

/-- The refresh of a single filter comes to the verdict on it. -/
theorem one_verdict (s : Store) (faults : Faults) (now : Instant) (reply : Reply) (f : Filter) :
    (one s faults now reply f).2.map Refreshed.undated = verdict s faults reply f ∧
      (one s faults now reply f).1.contents f.id =
        contentsAfter s f.id (verdict s faults reply f) := by
  unfold one
  cases happly : Fetch.apply reply (prepare s faults f) with
  | error e => simp [verdict, happly, contentsAfter]
  | ok result =>
    obtain ⟨fetched, changed⟩ := result
    obtain ⟨hout, hcontents, _⟩ := persist_verdict happly rfl now
    exact ⟨hout, hcontents⟩

end Refresh

end FilterLists
