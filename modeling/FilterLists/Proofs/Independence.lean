import FilterLists.Proofs.Refresh.Alone
import FilterLists.Proofs.Refresh.Progress

/-! A cycle is no more than the refreshes of its filters, each on its own. How many downloads run at
once and in which order the moves come makes no difference but for the times. -/
namespace FilterLists

namespace Service

/-- The registry in which every filter is as its refresh alone has left it. A running engine is told
of the new contents that these refreshes have counted together. -/
def refreshSeparately (s : Service) (policy : RefreshPolicy) (env : Surroundings) (now : Instant)
    (force : Bool) : Service × Except Error Nat :=
  let alone := s.registry.filters.map (s.refreshOnly policy env now force)
  let filters := alone.flatMap (fun result => result.1.registry.filters)
  let updated := (alone.map (fun result => result.2.toOption.getD 0)).sum
  Service.announce { s with registry := { s.registry with filters } } updated

/-- A cycle leaves the filter out: it is not due, or its download fails, or its save. -/
def Skips (s : Service) (policy : RefreshPolicy) (env : Surroundings) (now : Instant) (force : Bool)
    (f : Filter) : Prop :=
  let copy := Refresh.prepare s.store (env.faults f.id) f.refreshCopy
  policy.paused = true ∨ f.enabled = false ∨
    (force = false ∧ f.isStale now policy.interval = false) ∨
    (∃ e, Fetch.apply (env.network f.url) copy = .error e) ∨
    ∃ fetched e, Fetch.apply (env.network f.url) copy = .ok (fetched, true) ∧
      (s.store.save (env.faults f.id) now fetched).2 = .error e

variable {s : Service} {policy : RefreshPolicy} {env : Surroundings} {now : Instant} {force : Bool}

theorem fate_of_skips {f : Filter} (h : s.Skips policy env now force f) :
    Refresh.fate s.store policy env now force f = none := by
  unfold Refresh.fate Refresh.isDue
  rcases h with hpaused | hdisabled | ⟨hforce, hfresh⟩ | ⟨e, happly⟩ | ⟨fetched, e, happly, hsave⟩
  · simp [hpaused]
  · simp [hdisabled]
  · simp [hforce, hfresh]
  · have hverdict : Refresh.verdict s.store (env.faults f.id) (env.network f.url) f.refreshCopy =
        none := by
      simp only [Refresh.verdict, happly]
    split
    · exact hverdict
    · rfl
  · have hrefused : s.store.accepts (env.faults f.id) fetched = false := by
      rcases s.store.save_cases (env.faults f.id) now fetched with ⟨_, done, heq, _⟩ | ⟨hstop, _⟩
      · rw [heq] at hsave
        cases hsave
      · exact hstop
    have hverdict : Refresh.verdict s.store (env.faults f.id) (env.network f.url) f.refreshCopy =
        none := by
      simp only [Refresh.verdict, happly, hrefused, Bool.not_false, Bool.and_self, if_true]
    split
    · exact hverdict
    · rfl

section Separately
variable (s policy env now force)

theorem separate_filters (filters : List Filter) :
    ((filters.map (s.refreshOnly policy env now force)).flatMap
        (fun result => result.1.registry.filters)).map Filter.undated =
      filters.map (fun f => Registry.settled (Refresh.fate s.store policy env now force f) f) := by
  induction filters with
  | nil => rfl
  | cons f rest ih =>
    obtain ⟨⟨live, hregistry, hlive⟩, _⟩ := s.refreshOnly_spec policy env now force f
    rw [List.map_cons, List.flatMap_cons, List.map_append, ih, hregistry, List.map_cons, hlive]
    rfl

theorem separate_count (filters : List Filter) :
    ((filters.map (s.refreshOnly policy env now force)).map
        (fun result => result.2.toOption.getD 0)).sum =
      filters.countP
        (fun f => Registry.isRenewed (Refresh.fate s.store policy env now force f) f) := by
  induction filters with
  | nil => rfl
  | cons f rest ih =>
    obtain ⟨_, _, hcount⟩ := s.refreshOnly_spec policy env now force f
    rw [List.map_cons, List.map_cons, List.sum_cons, ih, hcount, List.countP_cons, Nat.add_comm]
    rfl

/-- Refreshed separately, every filter is settled by its own fate. -/
theorem refreshSeparately_spec :
    ∃ registry : Registry,
      registry.undated =
        { s.registry with
          filters := s.registry.filters.map
            (fun f => Registry.settled (Refresh.fate s.store policy env now force f) f) } ∧
      s.refreshSeparately policy env now force =
        Service.announce { s with registry }
          (s.registry.filters.countP
            (fun f => Registry.isRenewed (Refresh.fate s.store policy env now force f) f)) := by
  refine ⟨{ s.registry with
            filters := (s.registry.filters.map (s.refreshOnly policy env now force)).flatMap
              (fun result => result.1.registry.filters) }, ?_, ?_⟩
  · rw [Registry.undated, separate_filters]
  · rw [← separate_count]
    rfl

end Separately

/-- The refresh of one filter depends on the reply to it and on its own file only. -/
theorem refreshOnly_congr {t : Service} {other : Surroundings} {f : Filter}
    (hfile : t.store.cached f.id = s.store.cached f.id)
    (hreply : other.network f.url = env.network f.url)
    (hfaults : other.faults f.id = env.faults f.id) :
    (t.refreshOnly policy other now force f).1.registry.filters.map Filter.undated =
        (s.refreshOnly policy env now force f).1.registry.filters.map Filter.undated ∧
      (t.refreshOnly policy other now force f).1.store.contents f.id =
        (s.refreshOnly policy env now force f).1.store.contents f.id ∧
      (t.refreshOnly policy other now force f).2 = (s.refreshOnly policy env now force f).2 := by
  have hverdict : other.verdict t.store f.refreshCopy = env.verdict s.store f.refreshCopy := by
    unfold Surroundings.verdict
    rw [show other.faults f.refreshCopy.id = env.faults f.refreshCopy.id from hfaults,
      show other.network f.refreshCopy.url = env.network f.refreshCopy.url from hreply]
    exact Refresh.verdict_congr hfile
  have hfate : Refresh.fate t.store policy other now force f =
      Refresh.fate s.store policy env now force f := by
    simp only [Refresh.fate, hverdict]
  obtain ⟨⟨live, hregistry, hlive⟩, hcontents, hcount⟩ := s.refreshOnly_spec policy env now force f
  obtain ⟨⟨live', hregistry', hlive'⟩, hcontents', hcount'⟩ :=
    t.refreshOnly_spec policy other now force f
  rw [hfate] at hlive' hcontents' hcount'
  refine ⟨?_, ?_, hcount'.trans hcount.symm⟩
  · rw [hregistry, hregistry', List.map_singleton, List.map_singleton, hlive, hlive']
  · rw [hcontents, hcontents']
    unfold Refresh.contentsAfter
    cases Refresh.fate s.store policy env now force f with
    | none => exact Store.contents_congr hfile
    | some fresh => simp only [Store.contents_congr hfile]

end Service

section Ending
variable {service : Service} {policy : RefreshPolicy} {env : Surroundings} {now : Instant}
  {force : Bool} {s : Store} {c : Cycle}

/-- At the end of a cycle every filter has its fate, in the results and in its file. -/
theorem Cycle.Follows.fate_eq
    (h : c.Follows env service.store (Refresh.candidates service policy now force) s)
    (hids : (service.registry.filters.map (·.id)).Nodup) (hdone : c.isDone = true) {f : Filter}
    (hf : f ∈ service.registry.filters) :
    (Registry.landing? c.results f).map Refreshed.undated =
        Refresh.fate service.store policy env now force f ∧
      s.contents f.id =
        Refresh.contentsAfter service.store f.id
          (Refresh.fate service.store policy env now force f) ∧
      (Refresh.fate service.store policy env now force f = none →
        f.id ∉ c.results.map (·.filter.id)) := by
  have hcopies := Refresh.candidates_nodup policy now force hids
  unfold Refresh.fate
  cases hdue : Refresh.isDue policy now force f with
  | false =>
    have hnone := h.notMem_results (Refresh.notMem_candidates hids hf hdue)
    simp only [Bool.false_eq_true, if_false]
    rw [Registry.landing?_eq_none hnone]
    exact ⟨rfl, Store.contents_congr (h.frame f.id hnone), fun _ => hnone⟩
  | true =>
    have hcopy := Refresh.refreshCopy_mem_candidates hf hdue
    simp only [if_true]
    refine ⟨h.landing?_eq hcopies hdone hcopy rfl rfl, h.contents_eq hcopies hdone hcopy,
      fun hnone => ?_⟩
    rcases h.verdict_cases hcopies hdone hcopy with ⟨fresh, _, hverdict⟩ | ⟨_, hnot⟩
    · rw [hnone] at hverdict
      cases hverdict
    · exact hnot

/-- A merge of the results of a done cycle settles every filter by its fate and counts the renewed
ones. -/
theorem Cycle.Follows.merge_eq
    (h : c.Follows env service.store (Refresh.candidates service policy now force) s)
    (hids : (service.registry.filters.map (·.id)).Nodup) (hdone : c.isDone = true) :
    (service.registry.merge c.results).1.undated =
        { service.registry with
          filters := service.registry.filters.map
            (fun f => Registry.settled (Refresh.fate service.store policy env now force f) f) } ∧
      (service.registry.merge c.results).2 =
        service.registry.filters.countP
          (fun f => Registry.isRenewed (Refresh.fate service.store policy env now force f) f) := by
  have hlanding := fun f hf => Registry.landed_undated (h.fate_eq hids hdone (f := f) hf).1
  rw [Registry.merge, Registry.mergeFrom_eq 0 hids h.distinct.results]
  refine ⟨?_, ?_⟩
  · simp only [Registry.undated, List.map_map]
    congr 1
    exact List.map_congr_left (fun f hf => (hlanding f hf).1)
  · simp only [Nat.zero_add]
    exact List.countP_congr (fun f hf => by rw [(hlanding f hf).2])

/-- A done cycle is concluded as separate refreshes would have it. -/
theorem Cycle.Follows.conclude_eq
    (h : c.Follows env service.store (Refresh.candidates service policy now force) s)
    (hids : (service.registry.filters.map (·.id)).Nodup) (hdone : c.isDone = true) :
    let ended := c.conclude { service with store := s }
    let separate := service.refreshSeparately policy env now force
    ended.1.registry.undated = separate.1.registry.undated ∧
      ended.1.engine = separate.1.engine ∧ ended.2 = separate.2 := by
  intro ended separate
  obtain ⟨hmerged, hcount⟩ := h.merge_eq hids hdone
  obtain ⟨registry, hregistry, hseparate⟩ := service.refreshSeparately_spec policy env now force
  have hended : ended = Service.announce
      { service with store := s, registry := (service.registry.merge c.results).1 }
      (service.registry.merge c.results).2 := Refresh.conclude_eq_announce _ _
  have hapart : separate = _ := hseparate
  have hundated := hmerged.trans hregistry.symm
  obtain ⟨hengine, hresult⟩ := Service.announce_congr
    (s := { service with store := s, registry := (service.registry.merge c.results).1 })
    (t := { service with registry }) hundated rfl (service.registry.merge c.results).2
  rw [hcount] at hended hengine hresult
  refine ⟨?_, ?_, ?_⟩
  · rw [hended, hapart, Service.announce_registry, Service.announce_registry]
    exact hundated
  · rw [hended, hapart]
    exact hengine
  · rw [hended, hapart]
    exact hresult

theorem Cycle.Follows.unchanged_of_fate
    (h : c.Follows env service.store (Refresh.candidates service policy now force) s)
    (hids : (service.registry.filters.map (·.id)).Nodup) (hdone : c.isDone = true) {f : Filter}
    (hf : f ∈ service.registry.filters)
    (hfate : Refresh.fate service.store policy env now force f = none) :
    f ∈ (service.registry.merge c.results).1.filters ∧
      s.cached f.id = service.store.cached f.id := by
  have hnone := (h.fate_eq hids hdone hf).2.2 hfate
  have hlanded : Registry.landed c.results f = f := by
    simp only [Registry.landed, Registry.landing?_eq_none hnone]
  refine ⟨?_, h.frame f.id hnone⟩
  rw [Registry.merge, Registry.mergeFrom_eq 0 hids h.distinct.results]
  exact List.mem_map.mpr ⟨f, hf, hlanded⟩

end Ending

namespace LiveService

/-- The moves of a cycle that begins now bring what the surroundings hold. -/
def Meets (l : LiveService) (env : Surroundings) (now : Instant) (force : Bool)
    (moves : List CycleMove) : Prop :=
  Cycle.MeetsAll env l.policy.limit (l.service.store, .begin l.service l.policy now force) moves

variable {l : LiveService} {env : Surroundings} {now : Instant} {force : Bool}
  {moves : List CycleMove}

/-- Wherever the moves of a cycle have brought it, its results are verdicts on its filters. -/
theorem follows_lastState (hids : (l.service.registry.filters.map (·.id)).Nodup)
    (hmeets : l.Meets env now force moves) :
    (l.lastState ⟨now, force, moves⟩).2.Follows env l.service.store
      (Refresh.candidates l.service l.policy now force) (l.lastState ⟨now, force, moves⟩).1 := by
  have hcopies := Refresh.candidates_nodup l.policy now force hids
  exact Cycle.Follows.moves hcopies l.policy.limit (Cycle.follows_of_waiting hcopies) hmeets

theorem exists_ending (hidle : l.isIdle = true)
    (hids : (l.service.registry.filters.map (·.id)).Nodup) (hmeets : l.Meets env now force moves) :
    ∃ more, l.Meets env now force (moves ++ more) ∧
      (l.runAlone ⟨now, force, moves ++ more⟩).isIdle = true := by
  have hdistinct := (follows_lastState hids hmeets).distinct
  obtain ⟨more, hmore, hdone⟩ := Cycle.canEnd env l.policy.limit _ _ hdistinct
  refine ⟨more, Cycle.meetsAll_append.mpr ⟨hmeets, hmore⟩, ?_⟩
  rcases runAlone_cases (isIdle_iff.mp hidle) ⟨now, force, moves ++ more⟩ with ⟨_, heq⟩ | ⟨hnot, _⟩
  · rw [heq]
    rfl
  · rw [lastState, List.foldl_append] at hnot
    exact absurd (hnot.symm.trans hdone) Bool.false_ne_true

/-- Whatever number of downloads may run at once and in whatever order the moves of a cycle come, it
can be brought to its end. It ends with the filters, the rules and the result of separate refreshes
and with the files that these leave, and a filter that it leaves out keeps its time and its file.
Each separate refresh depends on the reply to its own filter and on its own file only. -/
theorem cycle_eq_separate (l : LiveService) (limit : Nat) (env : Surroundings) (now : Instant)
    (force : Bool) (hidle : l.isIdle = true)
    (hids : (l.service.registry.filters.map (·.id)).Nodup) :
    let start : LiveService := { l with policy := { l.policy with limit } }
    let alone := l.service.refreshOnly l.policy env now force
    let separate := l.service.refreshSeparately l.policy env now force
    (∀ moves, start.Meets env now force moves →
      (∃ more, start.Meets env now force (moves ++ more) ∧
        (start.runAlone ⟨now, force, moves ++ more⟩).isIdle = true) ∧
      let after := start.runAlone ⟨now, force, moves⟩
      (after.isIdle = true →
        after.service.registry.undated = separate.1.registry.undated ∧
        after.service.engine = separate.1.engine ∧ after.ended = separate.2 :: l.ended ∧
        (∀ f ∈ l.service.registry.filters,
          after.service.store.contents f.id = (alone f).1.store.contents f.id) ∧
        (∀ f ∈ l.service.registry.filters, l.service.Skips l.policy env now force f →
          f ∈ after.service.registry.filters ∧
            after.service.store.cached f.id = l.service.store.cached f.id) ∧
        ∀ id, id ∉ l.service.registry.filters.map (·.id) →
          after.service.store.cached id = l.service.store.cached id)) ∧
    ∀ (other : Service) (elsewhere : Surroundings) (f : Filter),
      other.store.cached f.id = l.service.store.cached f.id →
      elsewhere.network f.url = env.network f.url → elsewhere.faults f.id = env.faults f.id →
      let apart := other.refreshOnly l.policy elsewhere now force f
      apart.1.registry.filters.map Filter.undated =
          (alone f).1.registry.filters.map Filter.undated ∧
        apart.1.store.contents f.id = (alone f).1.store.contents f.id ∧ apart.2 = (alone f).2 := by
  intro start alone separate
  refine ⟨fun moves hmeets => ⟨exists_ending hidle hids hmeets, ?_⟩,
    fun other elsewhere f hfile hreply hfaults =>
      Service.refreshOnly_congr hfile hreply hfaults⟩
  intro after hends
  obtain ⟨hdone, heq⟩ := runAlone_of_isIdle (l := start) (isIdle_iff.mp hidle) hends
  have hfollows := follows_lastState (l := start) hids hmeets
  obtain ⟨hregistry, hengine, hresult⟩ := hfollows.conclude_eq hids hdone
  obtain ⟨hmerged, hstore⟩ := runAlone_frame (l := start) (isIdle_iff.mp hidle) hends
  have hafter : after = _ := heq
  rw [show after.service.store = _ from hstore]
  refine ⟨?_, ?_, ?_, ?_, ?_, ?_⟩
  · rw [hafter]
    exact hregistry
  · rw [hafter]
    exact hengine
  · rw [hafter]
    exact congrArg (· :: l.ended) hresult
  · intro f hf
    obtain ⟨_, hcontents, _⟩ := hfollows.fate_eq hids hdone hf
    obtain ⟨_, halone, _⟩ := l.service.refreshOnly_spec l.policy env now force f
    exact hcontents.trans halone.symm
  · intro f hf hskips
    rw [show after.service.registry = _ from hmerged]
    exact hfollows.unchanged_of_fate hids hdone hf (Service.fate_of_skips hskips)
  · intro id hid
    refine hfollows.frame id (hfollows.notMem_results (fun hmem => hid ?_))
    rw [Refresh.candidates_eq, List.map_map] at hmem
    exact (List.filter_sublist.map _).subset hmem

def twoDue : LiveService :=
  { service :=
      { registry :=
          { filters :=
              [{ id := 1, url := "http://a", enabled := true },
                { id := 2, url := "http://b", enabled := true }] }
        store := { path := "cache" } } }

def noRename : Faults
  | .rename => some (.other "No space left on device (os error 28)")
  | _ => none

/-- Two filters are answered, and the second cannot be saved. -/
def secondRefused : Surroundings :=
  { network := fun _ => .plainText "x"
    faults := fun id => if id = 2 then noRename else Faults.none }

/-- The second filter is downloaded and written before the first. -/
def backwards : List CycleMove :=
  [.downloadStarts Faults.none, .downloadStarts noRename, .downloadEnds 1 (.plainText "x"),
    .persists 1 noRename ⟨5⟩, .downloadEnds 0 (.plainText "x"), .persists 0 Faults.none ⟨7⟩]

theorem id_of_fetched {tasks : List Task} {ticket : Nat} {f : Filter} {changed : Bool}
    {id : FilterId} (hf : .fetched ticket f changed ∈ tasks)
    (h : ∀ task ∈ tasks, task.ticket = ticket → task.filter.id = id) : f.id = id :=
  h _ hf rfl

theorem meets_backwards : twoDue.Meets secondRefused ⟨0⟩ false backwards := by
  refine ⟨fun f hf => ?_, fun f hf => ?_, fun f _ => rfl, fun f changed hf => ?_, fun f _ => rfl,
    fun f changed hf => ?_, trivial⟩
  · cases hf
    rfl
  · cases hf
    rfl
  · have hid : f.id = 2 := id_of_fetched hf (by decide +kernel)
    rw [secondRefused, hid]
    rfl
  · have hid : f.id = 1 := id_of_fetched hf (by decide +kernel)
    rw [secondRefused, hid]
    rfl

theorem cycle_eq_separate_backwards :
    twoDue.isIdle = true ∧ (twoDue.service.registry.filters.map (·.id)).Nodup ∧
      twoDue.Meets secondRefused ⟨0⟩ false backwards ∧
      (twoDue.runAlone ⟨⟨0⟩, false, backwards⟩).ended = [.ok 1] ∧
      (twoDue.runAlone ⟨⟨0⟩, false, backwards⟩).service.registry.undated =
        (twoDue.service.refreshSeparately {} secondRefused ⟨0⟩ false).1.registry.undated := by
  have hids : (twoDue.service.registry.filters.map (·.id)).Nodup := by decide
  obtain ⟨hcycles, _⟩ := cycle_eq_separate twoDue 4 secondRefused ⟨0⟩ false rfl hids
  have hends : (twoDue.runAlone ⟨⟨0⟩, false, backwards⟩).isIdle = true := by decide +kernel
  obtain ⟨hregistry, _⟩ := (hcycles backwards meets_backwards).2 hends
  exact ⟨rfl, hids, meets_backwards, by decide +kernel, hregistry⟩

end LiveService

end FilterLists
