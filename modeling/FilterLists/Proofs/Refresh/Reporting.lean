import FilterLists.Proofs.Refresh.Alone
import FilterLists.Proofs.Refresh.Settling

/-! What the refresh of one filter reports when the network has a body for it. The body is unchanged
if it has the known checksum and the cached file can be examined. Any other body is new, and then it
depends on the save alone whether it is reported. -/
namespace FilterLists

namespace Filter
variable {f : Filter} {body : Bytes}

/-- The filter with a body as its content, under the title of the body if it has one. -/
def renewed (f : Filter) (body : Bytes) : Filter :=
  { f.setContent body with name := (Content.Summary.ofBytes body).title.getD f.name }

theorem applyFetched_eq (f : Filter) (body : Bytes) :
    f.applyFetched body =
      if f.checksum = some (FilterLists.checksum body) then (f, false) else (f.renewed body, true) :=
  rfl

end Filter

namespace Refresh
variable {s : Store} {faults : Faults} {reply : Reply} {f : Filter} {body : Bytes}

/-- The body has the known checksum, and the cached file is there to keep. -/
def confirms (s : Store) (faults : Faults) (f : Filter) (body : Bytes) : Bool :=
  f.checksum = some (checksum body) && (s.lastModified faults f).isSome

theorem prepare_of_confirms (h : confirms s faults f body = true) :
    prepare s faults f = f ∧ f.checksum = some (checksum body) := by
  obtain ⟨hsum, hfile⟩ := Bool.and_eq_true_iff.mp h
  have hexamined : (s.lastModified faults f).isNone = false := by
    rw [← Option.not_isSome, hfile, Bool.not_true]
  exact ⟨by simp [prepare, hexamined], of_decide_eq_true hsum⟩

/-- A preparation leaves no checksum that would pass the body for known. -/
theorem checksum_prepare_ne (h : confirms s faults f body = false) :
    (prepare s faults f).checksum ≠ some (checksum body) := by
  intro hsum
  unfold prepare at hsum
  split_ifs at hsum with hkept
  have hfile : (s.lastModified faults f).isSome = true := by
    simpa [hsum, Option.isSome_iff_ne_none] using hkept
  simp [confirms, hsum, hfile] at h

/-- Whatever the preparation has forgotten is replaced with the body. -/
theorem renewed_prepare (s : Store) (faults : Faults) (f : Filter) (body : Bytes) :
    (prepare s faults f).renewed body = f.renewed body := by
  unfold prepare
  split <;> rfl

theorem verdict_eq (hbody : reply.body? = some body) :
    verdict s faults reply f =
      if confirms s faults f body then some { filter := f.undated, changed := false }
      else if s.accepts faults (f.renewed body) then
        some { filter := (f.renewed body).undated, changed := true }
      else none := by
  unfold verdict
  rw [Fetch.apply_of_body hbody, Filter.applyFetched_eq]
  cases hknown : confirms s faults f body with
  | true =>
    obtain ⟨hsame, hsum⟩ := prepare_of_confirms hknown
    simp [hsame, hsum]
  | false =>
    rw [if_neg (checksum_prepare_ne hknown), renewed_prepare]
    cases haccepts : s.accepts faults (f.renewed body) <;> simp [haccepts]

theorem verdict_eq_none (hbody : reply.body? = none) : verdict s faults reply f = none := by
  rcases Fetch.apply_body? reply (prepare s faults f) with ⟨found, hfound, -⟩ | ⟨-, e, herror⟩
  · cases hfound.symm.trans hbody
  · simp only [verdict, herror]

/-- A filter that is due has the verdict on its working copy for its fate. -/
theorem fate_of_body {policy : RefreshPolicy} {env : Surroundings} {now : Instant} {force : Bool}
    (hdue : isDue policy now force f = true) (hbody : (env.network f.url).body? = some body) :
    fate s policy env now force f =
      if confirms s (env.faults f.id) f body then
        some { filter := f.refreshCopy.undated, changed := false }
      else if s.accepts (env.faults f.id) (f.renewed body) then
        some { filter := (f.refreshCopy.renewed body).undated, changed := true }
      else none := by
  rw [fate, hdue, if_pos rfl]
  exact verdict_eq hbody

end Refresh

end FilterLists
