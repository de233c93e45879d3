import FilterLists.Proofs.Refresh.Copies
import FilterLists.Proofs.Refresh.Script
import FilterLists.Proofs.Refresh.Verdict
import FilterLists.Proofs.Registry.Merge

/-! A cycle whose filters meet the same replies and the same refused file operations in whatever
order its moves come. At each moment the results are verdicts on single filters, and the files of
the other filters are still as the cycle found them. -/
namespace FilterLists

/-- What the refresh of a filter meets: the reply for its URL, and the file operations that the
device refuses for it. -/
structure Surroundings where
  network : Network
  faults : FilterId → Faults := fun _ => Faults.none

def Surroundings.verdict (env : Surroundings) (s : Store) (f : Filter) : Option Refreshed :=
  Refresh.verdict s (env.faults f.id) (env.network f.url) f

def Task.IsOf (env : Surroundings) (s : Store) (f : Filter) : Task → Prop
  | .fetching _ g => g = Refresh.prepare s (env.faults f.id) f
  | .fetched _ g changed =>
    Fetch.apply (env.network f.url) (Refresh.prepare s (env.faults f.id) f) = .ok (g, changed)

theorem Task.IsOf.id_eq {env : Surroundings} {s : Store} {f : Filter} {task : Task}
    (h : task.IsOf env s f) : task.filter.id = f.id := by
  have hid := (Refresh.prepare_subscription s (env.faults f.id) f).1
  cases task with
  | fetching t g =>
    cases h
    exact hid
  | fetched t g changed => exact (Fetch.apply_subscription h).1.trans hid

namespace Cycle
variable {env : Surroundings} {start s : Store} {copies : List Filter} {c : Cycle}

/-- The move brings what the surroundings hold for the filter that it is about. -/
def Meets (env : Surroundings) (c : Cycle) : CycleMove → Prop
  | .downloadStarts faults => ∀ f ∈ c.waiting.head?, faults = env.faults f.id
  | .downloadEnds ticket reply => ∀ f, .fetching ticket f ∈ c.active → reply = env.network f.url
  | .persists ticket faults _ =>
    ∀ f changed, .fetched ticket f changed ∈ c.active → faults = env.faults f.id

def MeetsAll (env : Surroundings) (limit : Nat) : Store × Cycle → List CycleMove → Prop
  | _, [] => True
  | state, move :: rest =>
    state.2.Meets env move ∧ MeetsAll env limit (Cycle.move limit state move) rest

/-- A cycle on its way from a store and the working copies that it began with. -/
structure Follows (env : Surroundings) (start : Store) (copies : List Filter) (s : Store)
    (c : Cycle) : Prop where
  distinct : c.Distinct
  waiting : ∀ f ∈ c.waiting, f ∈ copies
  active : ∀ task ∈ c.active, ∃ f ∈ copies, task.IsOf env start f
  results : ∀ fresh ∈ c.results, ∃ f ∈ copies, f.id = fresh.filter.id ∧
    env.verdict start f = some fresh.undated
  /-- A filter is dropped only where its refresh comes to nothing. -/
  complete : ∀ f ∈ copies, f.id ∉ c.ids → env.verdict start f = none
  files : ∀ fresh ∈ c.results, s.contents fresh.filter.id =
    Refresh.contentsAfter start fresh.filter.id (some fresh.undated)
  frame : ∀ id, id ∉ c.results.map (·.filter.id) → s.cached id = start.cached id

theorem follows_of_waiting (hcopies : (copies.map (·.id)).Nodup) :
    Follows env start copies start { waiting := copies } := by
  refine ⟨distinct_of_waiting hcopies, fun f hf => hf, by simp, by simp, fun f hf hnot => ?_,
    by simp, fun id _ => rfl⟩
  exact absurd (List.mem_append_left _ (List.mem_map_of_mem hf)) hnot

theorem Follows.launch (h : Follows env start copies s c) {faults : Faults} {limit : Nat}
    {d : Cycle} {g : Filter} (hmeets : c.Meets env (.downloadStarts faults))
    (hl : c.launch? s faults limit = some (d, g)) : Follows env start copies s d := by
  have hdistinct := h.distinct.launch hl
  have hids := ids_launch hl
  obtain ⟨f, rest, hwaiting, hg, rfl⟩ := launch?_cases hl
  have hf : f ∈ c.waiting := by simp [hwaiting]
  have hfaults : faults = env.faults f.id := hmeets f (by simp [hwaiting])
  have hsame : s.cached f.id = start.cached f.id :=
    h.frame f.id (h.distinct.notMem_results_of_waiting hf)
  constructor
  case distinct => exact hdistinct
  case waiting =>
    intro e he
    refine h.waiting e ?_
    rw [hwaiting]
    exact List.mem_cons_of_mem f he
  case results => exact h.results
  case complete =>
    exact fun e he hnot => h.complete e he fun hmem => hnot (hids.mem_iff.mpr hmem)
  case files => exact h.files
  case frame => exact h.frame
  case active =>
    intro task htask
    rcases List.mem_append.mp htask with hold | hnew
    · exact h.active task hold
    · rw [List.mem_singleton.mp hnew]
      exact ⟨f, h.waiting f hf, by rw [hg, hfaults, Refresh.prepare_congr hsame]; rfl⟩

theorem Follows.receive (h : Follows env start copies s c) (hcopies : (copies.map (·.id)).Nodup)
    {ticket : Nat} {reply : Reply} (hmeets : c.Meets env (.downloadEnds ticket reply)) :
    Follows env start copies s (c.receive ticket reply) := by
  have hreply : ∀ f ∈ copies,
      .fetching ticket (Refresh.prepare start (env.faults f.id) f) ∈ c.active →
      reply = env.network f.url := by
    intro f _ hactive
    rw [hmeets _ hactive, (Refresh.prepare_subscription start (env.faults f.id) f).2]
  constructor
  case distinct => exact h.distinct.receive ticket reply
  case waiting => exact h.waiting
  case results => exact h.results
  case files => exact h.files
  case frame => exact h.frame
  case active =>
    intro task htask
    rcases mem_receive htask with hold | ⟨g, fetched, changed, hg, happly, rfl⟩
    · exact h.active task hold
    · obtain ⟨f, hf, rfl⟩ := h.active _ hg
      exact ⟨f, hf, by rw [Task.IsOf, ← hreply f hf hg, happly]⟩
  case complete =>
    intro f hf hnot
    by_cases hmem : f.id ∈ c.ids
    · rcases mem_ids_receive hmem ticket reply with hkept | ⟨g, e, hg, hid, happly⟩
      · exact absurd hkept hnot
      · obtain ⟨f', hf', hof⟩ := h.active _ hg
        have heq : f' = f := List.inj_on_of_nodup_map hcopies hf' hf (hof.id_eq.symm.trans hid)
        subst heq
        cases hof
        rw [hreply f' hf hg] at happly
        simp only [Surroundings.verdict, Refresh.verdict, happly]
    · exact h.complete f hf hmem

section Outcome
variable {f : Filter} {outcome : Option Refreshed} {t : Store}

theorem Follows.results_append (h : Follows env start copies s c) (hf : f ∈ copies)
    (hid : ∀ fresh ∈ outcome, fresh.filter.id = f.id)
    (hout : outcome.map Refreshed.undated = env.verdict start f) :
    ∀ fresh ∈ c.results ++ outcome.toList, ∃ g ∈ copies, g.id = fresh.filter.id ∧
      env.verdict start g = some fresh.undated := by
  intro fresh hfresh
  rcases List.mem_append.mp hfresh with hold | hadded
  · exact h.results fresh hold
  · have hsome := Option.mem_toList.mp hadded
    refine ⟨f, hf, (hid fresh hsome).symm, ?_⟩
    rw [← hout, Option.mem_def.mp hsome]
    rfl

theorem Follows.files_append (h : Follows env start copies s c)
    (hnew : f.id ∉ c.results.map (·.filter.id)) (hid : ∀ fresh ∈ outcome, fresh.filter.id = f.id)
    (hout : outcome.map Refreshed.undated = env.verdict start f)
    (hcontents : t.contents f.id = Refresh.contentsAfter start f.id (env.verdict start f))
    (hframe : ∀ id, id ≠ f.id → t.cached id = s.cached id) :
    ∀ fresh ∈ c.results ++ outcome.toList, t.contents fresh.filter.id =
      Refresh.contentsAfter start fresh.filter.id (some fresh.undated) := by
  intro fresh hfresh
  rcases List.mem_append.mp hfresh with hold | hadded
  · have hne : fresh.filter.id ≠ f.id :=
      fun heq => hnew (heq ▸ List.mem_map.mpr ⟨fresh, hold, rfl⟩)
    exact (Store.contents_congr (hframe _ hne)).trans (h.files fresh hold)
  · have hsome := Option.mem_toList.mp hadded
    rw [hid fresh hsome, hcontents, ← hout, Option.mem_def.mp hsome]
    rfl

theorem Follows.frame_append (h : Follows env start copies s c)
    (hid : ∀ fresh ∈ outcome, fresh.filter.id = f.id)
    (hdropped : outcome = none → t.cached f.id = start.cached f.id)
    (hframe : ∀ id, id ≠ f.id → t.cached id = s.cached id) :
    ∀ id, id ∉ (c.results ++ outcome.toList).map (·.filter.id) →
      t.cached id = start.cached id := by
  intro id hnot
  rw [List.map_append, List.mem_append, not_or] at hnot
  by_cases hown : id = f.id
  · subst hown
    refine hdropped ?_
    cases houtcome : outcome with
    | none => rfl
    | some fresh => exact absurd (by simp [houtcome, hid fresh houtcome]) hnot.2
  · exact (hframe id hown).trans (h.frame id hnot.1)

end Outcome

theorem Follows.persist (h : Follows env start copies s c) (hcopies : (copies.map (·.id)).Nodup)
    {ticket : Nat} {faults : Faults} {now : Instant}
    (hmeets : c.Meets env (.persists ticket faults now)) :
    Follows env start copies (c.persist s faults now ticket).1
      (c.persist s faults now ticket).2 := by
  have hdistinct := h.distinct.persist s faults now ticket
  rcases c.persist_cases s faults now ticket with ⟨g, changed, hg, heq⟩ | heq
  · obtain ⟨f, hf, hof⟩ := h.active _ hg
    have hid : g.id = f.id := hof.id_eq
    obtain rfl : faults = env.faults f.id := by rw [hmeets g changed hg, hid]
    have hnew : f.id ∉ c.results.map (·.filter.id) := by
      rw [← hid]
      exact h.distinct.notMem_results_of_active hg
    obtain ⟨hout, hcontents, hdropped⟩ := Refresh.persist_verdict hof (h.frame f.id hnew) now
    have hframe : ∀ id, id ≠ f.id →
        (Refresh.persist s (env.faults f.id) now g changed).1.cached id = s.cached id :=
      fun id hne => Refresh.persist_cached_of_ne s _ now g changed (hid ▸ hne)
    have houtid := Refresh.persist_outcome_id s (env.faults f.id) now g changed
    have hfid := fun fresh hfresh => (houtid fresh hfresh).trans hid
    have hperm := ids_persist h.distinct hg houtid
    -- a copy that is dropped is one with no verdict
    have hverdict : (Refresh.persist s (env.faults f.id) now g changed).2 = none →
        env.verdict start f = none := by
      intro hnone
      rw [Surroundings.verdict, ← hout, hnone]
      rfl
    rw [heq] at hdistinct ⊢
    constructor
    case distinct => exact hdistinct
    case waiting => exact h.waiting
    case active => exact fun task htask => h.active task (List.mem_filter.mp htask).1
    case results => exact h.results_append hf hfid hout
    case complete =>
      intro e he hnot
      by_cases hmem : e.id ∈ c.ids
      · rcases List.mem_append.mp (hperm.mem_iff.mp hmem) with hleft | hkept
        · split_ifs at hleft with hnone
          · cases hleft
          · have heid : e.id = f.id := (List.mem_singleton.mp hleft).trans hid
            rw [List.inj_on_of_nodup_map hcopies he hf heid]
            exact hverdict (Option.not_isSome_iff_eq_none.mp hnone)
        · exact absurd hkept hnot
      · exact h.complete e he hmem
    case files => exact h.files_append hnew hfid hout hcontents hframe
    case frame => exact h.frame_append hfid (fun hnone => hdropped (hverdict hnone)) hframe
  · rw [heq]
    exact h

theorem Follows.move (h : Follows env start copies s c) (hcopies : (copies.map (·.id)).Nodup)
    (limit : Nat) {move : CycleMove} (hmeets : c.Meets env move) :
    Follows env start copies (Cycle.move limit (s, c) move).1 (Cycle.move limit (s, c) move).2 := by
  cases move with
  | downloadStarts faults =>
    simp only [Cycle.move]
    cases hl : c.launch? s faults limit with
    | none => exact h
    | some launched => exact h.launch hmeets hl
  | downloadEnds ticket reply => exact h.receive hcopies hmeets
  | persists ticket faults now => exact h.persist hcopies hmeets

theorem Follows.moves (hcopies : (copies.map (·.id)).Nodup) (limit : Nat) {moves : List CycleMove}
    {state : Store × Cycle} (h : Follows env start copies state.1 state.2)
    (hmeets : MeetsAll env limit state moves) :
    Follows env start copies (moves.foldl (Cycle.move limit) state).1
      (moves.foldl (Cycle.move limit) state).2 := by
  induction moves generalizing state with
  | nil => exact h
  | cons move rest ih => exact ih (h.move hcopies limit hmeets.1) hmeets.2

/-- When the cycle is done, each working copy has brought the verdict on it. -/
theorem Follows.verdict_cases (h : Follows env start copies s c)
    (hcopies : (copies.map (·.id)).Nodup) (hdone : c.isDone = true) {f : Filter} (hf : f ∈ copies) :
    (∃ fresh ∈ c.results, env.verdict start f = some fresh.undated) ∨
      (env.verdict start f = none ∧ f.id ∉ c.results.map (·.filter.id)) := by
  by_cases hresult : f.id ∈ c.results.map (·.filter.id)
  · obtain ⟨fresh, hfresh, hid⟩ := List.mem_map.mp hresult
    obtain ⟨g, hg, hgid, hverdict⟩ := h.results fresh hfresh
    have heq : g = f := List.inj_on_of_nodup_map hcopies hg hf (hgid.trans hid)
    exact .inl ⟨fresh, hfresh, heq ▸ hverdict⟩
  · obtain ⟨hwaiting, hactive⟩ := isDone_iff.mp hdone
    exact .inr ⟨h.complete f hf (by simpa [ids, hwaiting, hactive] using hresult), hresult⟩

/-- What a done cycle has for a live filter is the verdict on the working copy of that filter. -/
theorem Follows.landing?_eq (h : Follows env start copies s c)
    (hcopies : (copies.map (·.id)).Nodup) (hdone : c.isDone = true) {live f : Filter}
    (hf : f ∈ copies) (hid : f.id = live.id) (hurl : f.url = live.url) :
    (Registry.landing? c.results live).map Refreshed.undated = env.verdict start f := by
  rcases h.verdict_cases hcopies hdone hf with ⟨fresh, hfresh, hverdict⟩ | ⟨hverdict, hnone⟩
  · obtain ⟨hid', hurl'⟩ := Refresh.verdict_subscription hverdict
    have hsame : Registry.sameSubscription live fresh.filter = true :=
      Registry.sameSubscription_iff.mpr ⟨(hid'.trans hid).symm, (hurl'.trans hurl).symm⟩
    rw [Registry.landing?_eq_some h.distinct.results hfresh hsame, hverdict]
    rfl
  · rw [Registry.landing?_eq_none (hid ▸ hnone), hverdict]
    rfl

theorem Follows.contents_eq (h : Follows env start copies s c) (hcopies : (copies.map (·.id)).Nodup)
    (hdone : c.isDone = true) {f : Filter} (hf : f ∈ copies) :
    s.contents f.id = Refresh.contentsAfter start f.id (env.verdict start f) := by
  rcases h.verdict_cases hcopies hdone hf with ⟨fresh, hfresh, hverdict⟩ | ⟨hverdict, hnone⟩
  · have hid : fresh.filter.id = f.id := (Refresh.verdict_subscription hverdict).1
    rw [hverdict, ← hid]
    exact h.files fresh hfresh
  · rw [hverdict]
    exact Store.contents_congr (h.frame f.id hnone)

/-- A filter without a working copy has no result. -/
theorem Follows.notMem_results (h : Follows env start copies s c) {id : FilterId}
    (hid : id ∉ copies.map (·.id)) : id ∉ c.results.map (·.filter.id) := by
  intro hresult
  obtain ⟨fresh, hfresh, rfl⟩ := List.mem_map.mp hresult
  obtain ⟨g, hg, hgid, _⟩ := h.results fresh hfresh
  exact hid (List.mem_map.mpr ⟨g, hg, hgid⟩)

end Cycle

end FilterLists
