import FilterLists.Proofs.Convergence
import FilterLists.Proofs.Refresh.Reporting

/-! The number that a cycle returns. It counts the filters that come out with another content and,
besides these, the filters whose cached file was lost and is written again with the same content. -/
namespace FilterLists

/-- The number of filters that have another content afterwards. -/
def Registry.changedContents (before after : Registry) : Nat :=
  (before.filters.zip after.filters).countP (fun pair => pair.1.content ≠ pair.2.content)

namespace Refresh
variable {s : Store} {policy : RefreshPolicy} {env : Surroundings} {now : Instant} {force : Bool}
  {f : Filter}

/-- A cycle writes the content of the filter to the cache again: the network still has it, the
cached file cannot be examined, and the save does not fail. -/
def rewrites (s : Store) (policy : RefreshPolicy) (env : Surroundings) (now : Instant) (force : Bool)
    (f : Filter) : Bool :=
  isDue policy now force f && (f.holdsContent && (env.network f.url).body? = f.content) &&
    ((s.lastModified (env.faults f.id) f).isNone && s.accepts (env.faults f.id) f)

/-- The filter has another content when the cycle has ended. -/
def changes (s : Store) (policy : RefreshPolicy) (env : Surroundings) (now : Instant) (force : Bool)
    (f : Filter) : Bool :=
  f.content ≠ (Registry.settled (fate s policy env now force f) f).content

/-- The filters that count are the due ones with a body that is not confirmed and can be saved. -/
theorem isRenewed_fate_iff :
    Registry.isRenewed (fate s policy env now force f) f = true ↔
      isDue policy now force f = true ∧ ∃ body, (env.network f.url).body? = some body ∧
        confirms s (env.faults f.id) f body = false ∧
        s.accepts (env.faults f.id) (f.renewed body) = true := by
  cases hdue : isDue policy now force f with
  | false => simp [fate, hdue, Registry.isRenewed]
  | true =>
    have henabled : f.enabled = true := enabled_of_isDue hdue
    cases hbody : (env.network f.url).body? with
    | none =>
      have hnone : fate s policy env now force f = none := by
        rw [fate, hdue, if_pos rfl]
        exact verdict_eq_none hbody
      simp [hnone, Registry.isRenewed]
    | some body =>
      rw [fate_of_body hdue hbody]
      cases hconfirmed : confirms s (env.faults f.id) f body <;>
        cases haccepts : s.accepts (env.faults f.id) (f.renewed body) <;>
        simp [Registry.isRenewed, henabled, hconfirmed, haccepts]

theorem content_of_isRenewed (h : Registry.isRenewed (fate s policy env now force f) f = true) :
    (Registry.settled (fate s policy env now force f) f).content = (env.network f.url).body? := by
  obtain ⟨hdue, body, hbody, hconfirmed, haccepts⟩ := isRenewed_fate_iff.mp h
  have henabled : f.enabled = true := enabled_of_isDue hdue
  rw [fate_of_body hdue hbody, hconfirmed, haccepts, hbody]
  simp [Registry.settled, Registry.takeOver, henabled, Filter.undated, Filter.renewed,
    Filter.setContent]

/-- A filter has another content if it counts and did not hold the body of the network before. -/
theorem changes_iff :
    changes s policy env now force f = true ↔
      Registry.isRenewed (fate s policy env now force f) f = true ∧
        f.content ≠ (env.network f.url).body? := by
  cases hcounts : Registry.isRenewed (fate s policy env now force f) f with
  | true => simp [changes, content_of_isRenewed hcounts]
  | false =>
    unfold changes
    cases hfate : fate s policy env now force f with
    | none => simp [Registry.settled, Filter.undated]
    | some fresh =>
      have hkept : (fresh.changed && f.enabled) = false := by
        simpa [hfate, Registry.isRenewed] using hcounts
      simp [Registry.settled, Registry.takeOver, hkept, Filter.undated]

theorem accepts_renewed {faults : Faults} {body : Bytes} (h : f.content = some body) :
    s.accepts faults (f.renewed body) = s.accepts faults f := by
  simp [Store.accepts, Filter.renewed, Filter.setContent, h]

/-- A filter is written again if it counts although it held the body of the network before. Its
checksum was that of the body then, so it is the file that was not confirmed. -/
theorem rewrites_iff (hconsistent : f.Consistent) :
    rewrites s policy env now force f = true ↔
      Registry.isRenewed (fate s policy env now force f) f = true ∧
        f.content = (env.network f.url).body? := by
  rw [isRenewed_fate_iff]
  cases hcontent : f.content with
  | none =>
    simp only [rewrites, Filter.holdsContent, hcontent]
    constructor
    · simp
    · rintro ⟨⟨-, body, hbody, -⟩, hnone⟩
      cases hnone.trans hbody
  | some body =>
    have hsum : f.checksum = some (checksum body) := by
      simp only [Filter.Consistent, hcontent] at hconsistent
      exact hconsistent.1
    have hlost : confirms s (env.faults f.id) f body = false ↔
        (s.lastModified (env.faults f.id) f).isNone = true := by
      rw [confirms, hsum, decide_eq_true rfl, Bool.true_and, Option.isSome_eq_false_iff]
    constructor
    · intro h
      simp only [rewrites, Filter.holdsContent, hcontent, Bool.and_eq_true, decide_eq_true_eq] at h
      obtain ⟨⟨hdue, -, hbody⟩, hmissing, haccepts⟩ := h
      rw [← accepts_renewed hcontent] at haccepts
      exact ⟨⟨hdue, body, hbody, hlost.mpr hmissing, haccepts⟩, hbody.symm⟩
    · rintro ⟨⟨hdue, found, hbody, hconfirmed, haccepts⟩, hsame⟩
      obtain rfl : found = body := Option.some.inj (hbody.symm.trans hsame.symm)
      rw [accepts_renewed hcontent] at haccepts
      simp [rewrites, Filter.holdsContent, hcontent, hdue, hbody, hlost.mp hconfirmed, haccepts]

/-- A filter that counts has another content or was written again, and not both. -/
theorem isRenewed_fate_eq (hconsistent : f.Consistent) :
    Registry.isRenewed (fate s policy env now force f) f =
        (changes s policy env now force f || rewrites s policy env now force f) ∧
      ¬ (changes s policy env now force f = true ∧ rewrites s policy env now force f = true) := by
  rw [Bool.eq_iff_iff, Bool.or_eq_true, changes_iff, rewrites_iff hconsistent]
  constructor
  · by_cases hsame : f.content = (env.network f.url).body? <;> simp [hsame]
  · rintro ⟨⟨-, hother⟩, -, hsame⟩
    exact hother hsame

end Refresh

theorem Refresh.eq_of_conclude_eq_ok {s : Service} {results : List Refreshed} {n : Nat}
    (h : (conclude s results).2 = .ok n) : n = (s.registry.merge results).2 := by
  rcases conclude_cases s results with ⟨rules, -, heq⟩ | ⟨e, -, -, heq⟩ | ⟨-, heq⟩ <;>
    rw [heq] at h <;> cases h <;> rfl

section Ending
variable {service : Service} {policy : RefreshPolicy} {env : Surroundings} {now : Instant}
  {force : Bool} {s : Store} {c : Cycle}

/-- Filters keep their places in a merge, so their contents can be compared one by one. -/
theorem Registry.changedContents_map (r : Registry) (g : Filter → Filter) :
    r.changedContents { r with filters := r.filters.map g } =
      r.filters.countP (fun f => f.content ≠ (g f).content) := by
  rw [changedContents, ← List.map_prod_left_eq_zip, List.countP_map]
  rfl

/-- The merge of a done cycle counts the changed contents and the rewritten files. -/
theorem Cycle.Follows.count_eq
    (h : c.Follows env service.store (Refresh.candidates service policy now force) s)
    (hids : (service.registry.filters.map (·.id)).Nodup)
    (hconsistent : ∀ f ∈ service.registry.filters, f.Consistent) (hdone : c.isDone = true) :
    (service.registry.merge c.results).2 =
      service.registry.changedContents (service.registry.merge c.results).1 +
        service.registry.filters.countP (Refresh.rewrites service.store policy env now force) := by
  let changes := Refresh.changes service.store policy env now force
  let rewrites := Refresh.rewrites service.store policy env now force
  have hlanded := fun f hf => Registry.landed_undated (h.fate_eq hids hdone (f := f) hf).1
  have hcontents : ∀ f ∈ service.registry.filters,
      decide (f.content ≠ (Registry.landed c.results f).content) = changes f := by
    intro f hf
    have hcontent := congrArg Filter.content (hlanded f hf).1
    rw [show (Registry.landed c.results f).content = _ from hcontent]
    rfl
  have hcounts : ∀ f ∈ service.registry.filters,
      Registry.renewed c.results f = (changes f || rewrites f) ∧
        ¬ (changes f = true ∧ rewrites f = true) := by
    intro f hf
    obtain ⟨hsum, hapart⟩ := Refresh.isRenewed_fate_eq (hconsistent f hf)
    exact ⟨(hlanded f hf).2.trans hsum, hapart⟩
  rw [Registry.merge, Registry.mergeFrom_eq 0 hids h.distinct.results,
    Registry.changedContents_map, Nat.zero_add]
  calc
    service.registry.filters.countP (Registry.renewed c.results) =
        service.registry.filters.countP (fun f => changes f || rewrites f) :=
      List.countP_congr (fun f hf => by rw [(hcounts f hf).1])
    _ = service.registry.filters.countP changes + service.registry.filters.countP rewrites :=
      Registry.countP_or_of_disjoint (fun f hf => (hcounts f hf).2)
    _ = _ := by
      congr 1
      exact List.countP_congr (fun f hf => by rw [hcontents f hf])

end Ending

namespace LiveService
variable {l : LiveService} {env : Surroundings} {now : Instant} {force : Bool}
  {moves : List CycleMove}

theorem merged_of_ended {script : CycleScript} (hidle : l.isIdle = true) {n : Nat}
    (hended : (l.runAlone script).ended = .ok n :: l.ended) :
    (l.lastState script).2.isDone = true ∧
      (l.runAlone script).service.registry =
        (l.service.registry.merge (l.lastState script).2.results).1 ∧
      n = (l.service.registry.merge (l.lastState script).2.results).2 := by
  rcases runAlone_cases (isIdle_iff.mp hidle) script with ⟨hdone, heq⟩ | ⟨-, heq⟩
  · refine ⟨hdone, (runAlone_frame (isIdle_iff.mp hidle) (by rw [heq]; rfl)).1, ?_⟩
    rw [heq] at hended
    let stored := { l.service with store := (l.lastState script).1 }
    have hresult : (Refresh.conclude stored (l.lastState script).2.results).2 = .ok n :=
      (List.cons.inj hended).1
    exact Refresh.eq_of_conclude_eq_ok (s := stored) hresult
  · rw [heq] at hended
    exact absurd hended List.ne_cons_self

/-- Start idle, with distinct ids and consistent filters. A cycle with nothing in between can be
brought to its end. If it returns a number, the filters are still the same ones, and the number is
that of the changed contents together with that of the lost files that are written again. -/
theorem count_of_runAlone (hidle : l.isIdle = true)
    (hids : (l.service.registry.filters.map (·.id)).Nodup)
    (hconsistent : ∀ f ∈ l.service.registry.filters, f.Consistent)
    (hmeets : l.Meets env now force moves) :
    (∃ more, l.Meets env now force (moves ++ more) ∧
      (l.runAlone ⟨now, force, moves ++ more⟩).isIdle = true) ∧
    let before := l.service.registry
    let after := (l.runAlone ⟨now, force, moves⟩).service.registry
    ∀ n, (l.runAlone ⟨now, force, moves⟩).ended = .ok n :: l.ended →
      after.filters.map (·.id) = before.filters.map (·.id) ∧
      n = before.changedContents after +
        before.filters.countP (Refresh.rewrites l.service.store l.policy env now force) := by
  refine ⟨exists_ending hidle hids hmeets, ?_⟩
  intro before after n hended
  obtain ⟨hdone, hmerged, hcount⟩ := merged_of_ended hidle hended
  have hafter : after = _ := hmerged
  rw [hafter, hcount]
  exact ⟨Registry.map_id_merge _ _, (follows_lastState hids hmeets).count_eq hids hconsistent hdone⟩

def sameAndNew : Surroundings :=
  { network := fun url => if url = "http://a" then .plainText "a" else .plainText "c" }

def bothSaved : List CycleMove :=
  [.downloadStarts Faults.none, .downloadStarts Faults.none, .downloadEnds 1 (.plainText "c"),
    .downloadEnds 0 (.plainText "a"), .persists 1 Faults.none ⟨5⟩, .persists 0 Faults.none ⟨6⟩]

theorem meets_bothSaved : oneLost.Meets sameAndNew ⟨0⟩ true bothSaved := by
  refine ⟨fun f _ => rfl, fun f _ => rfl, ?_, ?_, fun f _ _ => rfl, fun f _ _ => rfl, trivial⟩
  · exact reply_of_url "http://b" rfl (by decide +kernel)
  · exact reply_of_url "http://a" rfl (by decide +kernel)

theorem count_of_bothSaved :
    oneLost.isIdle = true ∧
      (oneLost.service.registry.filters.map (·.id)).Nodup ∧
      (oneLost.runAlone ⟨⟨0⟩, true, bothSaved⟩).ended = [.ok 2] ∧
      2 = oneLost.service.registry.changedContents
          (oneLost.runAlone ⟨⟨0⟩, true, bothSaved⟩).service.registry +
        oneLost.service.registry.filters.countP
          (Refresh.rewrites oneLost.service.store {} sameAndNew ⟨0⟩ true) := by
  have hids : (oneLost.service.registry.filters.map (·.id)).Nodup := by decide
  have hended : (oneLost.runAlone ⟨⟨0⟩, true, bothSaved⟩).ended = [.ok 2] := by
    decide +kernel
  obtain ⟨-, hcount⟩ := count_of_runAlone (l := oneLost) rfl hids
    consistent_oneLost meets_bothSaved
  exact ⟨rfl, hids, hended, (hcount 2 hended).2⟩

/-- The count alone does not tell how many contents have changed. -/
theorem not_count_eq_changed_of_bothSaved :
    oneLost.isIdle = true ∧
      (oneLost.service.registry.filters.map (·.id)).Nodup ∧
      (oneLost.service.registry.filters.map (·.url)).Nodup ∧
      (∀ f ∈ oneLost.service.registry.filters, f.Consistent) ∧
      oneLost.Meets sameAndNew ⟨0⟩ true bothSaved ∧
      (oneLost.runAlone ⟨⟨0⟩, true, bothSaved⟩).ended = [.ok 2] ∧
      oneLost.service.registry.changedContents
        (oneLost.runAlone ⟨⟨0⟩, true, bothSaved⟩).service.registry = 1 :=
  ⟨rfl, by decide, by decide, consistent_oneLost, meets_bothSaved, by decide +kernel,
    by decide +kernel⟩

end LiveService

end FilterLists
