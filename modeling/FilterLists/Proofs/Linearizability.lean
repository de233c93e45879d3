import FilterLists.Proofs.Adding

/-! Requests to add and to remove, whatever comes between their steps. The length of the list
follows from those that have succeeded, and no id is given to two of them. -/
namespace FilterLists

def AddRequest.info? : AddRequest → Option FilterInfo
  | .answered (.ok info) => some info
  | _ => none

def AddRequest.givenId? : AddRequest → Option FilterId
  | .appending f => some f.id
  | .answered (.ok info) => some info.id
  | _ => none

def RemoveRequest.removed? : RemoveRequest → Option FilterInfo
  | .deleting f => some f.info
  | .answered (.ok info) => some info
  | .answered (.error _) => none

/-- The change of one element of a list, seen in how many of them yield something. -/
theorem length_filterMap_set {α β : Type} {g : α → Option β} {l : List α} {place : Nat} {a : α}
    (h : l[place]? = some a) (b : α) :
    ((l.set place b).filterMap g).length + (g a).toList.length =
      (l.filterMap g).length + (g b).toList.length := by
  obtain ⟨rest, hbefore, hafter⟩ := perm_filterMap_set (g := g) h
  have hold := hbefore.length_eq
  have hnew := (hafter b).length_eq
  rw [List.length_append] at hold hnew
  omega

/-- A step of a request makes the list longer by the filter that it now answers with. -/
theorem AddRequest.length_step (request : AddRequest) (r : Registry) :
    (request.step r).1.filters.length + request.info?.toList.length =
      r.filters.length + (request.step r).2.info?.toList.length := by
  generalize hnext : request.step r = next
  cases isStep hnext with
  | appends _ => exact List.length_append
  | refuses | passes | numbers | yields | rests => rfl

/-- A request keeps the id that it was given until it is refused. -/
theorem AddRequest.givenId?_step (request : AddRequest) (r : Registry) :
    (request.step r).2.givenId? = none ∨ (request.step r).2.givenId? = request.givenId? ∨
      request.givenId? = none ∧ (request.step r).2.givenId? = some r.nextId ∧
        (request.step r).1.nextId = FilterId.next r.nextId := by
  generalize hnext : request.step r = next
  cases isStep hnext with
  | refuses | passes | yields => exact .inl rfl
  | appends | rests => exact .inr (.inl rfl)
  | numbers => exact .inr (.inr ⟨rfl, rfl, rfl⟩)

theorem RemoveRequest.length_begin (r : Registry) (url : String) :
    (RemoveRequest.begin r url).1.filters.length +
      (RemoveRequest.begin r url).2.removed?.toList.length = r.filters.length := by
  unfold RemoveRequest.begin Registry.remove Registry.get?
  cases hfind : r.filters.find? (fun f => f.url = url) with
  | none => rfl
  | some f => exact (Registry.perm_cons_eraseP hfind).length_eq.symm

namespace LiveService

def added (l : LiveService) : List FilterInfo :=
  l.adds.filterMap AddRequest.info?

def removed (l : LiveService) : List FilterInfo :=
  l.removals.filterMap RemoveRequest.removed?

variable {l : LiveService} {e : ServiceEvent} {events : List ServiceEvent}

/-- Where an event leaves the requests alone, some field of all filters must stay as it is, and with
it the length of the list. -/
theorem length_of_same {m : LiveService} {β : Type} {k : Filter → β}
    (hsame : m.service.registry.filters.map k = l.service.registry.filters.map k)
    (hadds : m.adds = l.adds) (hremovals : m.removals = l.removals) :
    m.service.registry.filters.length + m.removed.length + l.added.length =
      l.service.registry.filters.length + l.removed.length + m.added.length := by
  have hlength : m.service.registry.filters.length = l.service.registry.filters.length := by
    simpa only [List.length_map] using congrArg List.length hsame
  simp only [hlength, added, removed, hadds, hremovals]

theorem length_addProceeds (place : Nat) :
    (l.step (.addProceeds place)).service.registry.filters.length + l.added.length =
      l.service.registry.filters.length + (l.step (.addProceeds place)).added.length := by
  simp only [step]
  cases hrequest : l.adds[place]? with
  | none => rfl
  | some request =>
    have hset := length_filterMap_set (g := AddRequest.info?) hrequest
      (request.step l.service.registry).2
    have hlength := request.length_step l.service.registry
    simp only [added, withRegistry]
    omega

theorem length_removeBegins (url : String) :
    (l.step (.removeBegins url)).service.registry.filters.length +
        (l.step (.removeBegins url)).removed.length =
      l.service.registry.filters.length + l.removed.length := by
  have hlength := RemoveRequest.length_begin l.service.registry url
  simp only [step, removed, withRegistry, List.filterMap_append, List.length_append,
    filterMap_cons_eq_append, List.filterMap_nil, List.append_nil]
  omega

theorem length_removeProceeds (place : Nat) (faults : Faults) :
    (l.step (.removeProceeds place faults)).removed.length = l.removed.length := by
  simp only [step]
  cases hrequest : l.removals[place]? with
  | none => rfl
  | some request =>
    have hset := length_filterMap_set (g := RemoveRequest.removed?) hrequest
      (request.step l.service.store faults).2
    cases request <;> simpa [removed, RemoveRequest.step, RemoveRequest.removed?] using hset

/-- What an event does to the length of the list, the requests to add and those to remove
account for. -/
theorem length_step (hurls : (l.service.registry.filters.map (·.url)).Nodup) (e : ServiceEvent) :
    (l.step e).service.registry.filters.length + (l.step e).removed.length + l.added.length =
      l.service.registry.filters.length + l.removed.length + (l.step e).added.length := by
  cases e with
  | addProceeds place =>
    have hlength := length_addProceeds (l := l) place
    have hremoved : (l.step (.addProceeds place)).removed = l.removed := by
      rw [removed, (l.addProceeds_frame place).2.2, removed]
    rw [hremoved]
    omega
  | removeBegins url =>
    have hlength := length_removeBegins (l := l) url
    have hadded : (l.step (.removeBegins url)).added = l.added := rfl
    rw [hadded]
    omega
  | removeProceeds place faults =>
    obtain ⟨hregistry, -, hadds⟩ := l.removeProceeds_frame place faults
    rw [length_removeProceeds, hregistry, added, added, hadds]
  | addBegins url name enabled =>
    have hnone : [AddRequest.begin url name enabled].filterMap AddRequest.info? = [] := by
      unfold AddRequest.begin
      split <;> rfl
    have hadded : (l.step (.addBegins url name enabled)).added = l.added := by
      rw [added, step, List.filterMap_append, hnone, List.append_nil, added]
    rw [hadded]
    rfl
  | cycleEnds place =>
    rcases l.cycleEnds_cases place with ⟨c, _, _, hservice, _, _, hadds, hremovals⟩ | heq
    · refine length_of_same (k := Filter.id) ?_ hadds hremovals
      rw [hservice, Cycle.registry_conclude, Registry.map_id_merge]
    · rw [heq]
  | switches faults url enabled =>
    have hload := l.service.store.keeps_load faults
    exact length_of_same (Registry.map_id_setEnabled hload _ url enabled) rfl rfl
  | loadsAll faults =>
    have hload := l.service.store.keeps_load faults
    exact length_of_same (Registry.map_url_loadAll hload _) rfl rfl
  | deduplicates =>
    -- URLs are distinct already, so nothing is dropped
    have hkept := Registry.firstByUrl_of_nodup hurls fun _ _ => List.not_mem_nil
    exact length_of_same (congrArg (List.map Filter.id) hkept) rfl rfl
  | downloadStarts place faults =>
    obtain ⟨hservice, hadds, hremovals⟩ := l.downloadStarts_frame place faults
    exact length_of_same (k := Filter.id) (by rw [hservice]) hadds hremovals
  | persists place ticket faults now =>
    obtain ⟨hregistry, hadds, hremovals⟩ := l.persists_frame place ticket faults now
    exact length_of_same (k := Filter.id) (by rw [hregistry]) hadds hremovals
  | cycleBegins | downloadEnds | assignsId | raisesIdFloor | setsUserRules | fileVanishes => rfl

/-- No two requests were given the same id. -/
structure GivenOnce (l : LiveService) : Prop where
  nodup : (l.adds.filterMap AddRequest.givenId?).Nodup
  bound : ∀ id ∈ l.adds.filterMap AddRequest.givenId?, id < l.service.registry.nextId

theorem GivenOnce.proceeds (h : l.GivenOnce) {place : Nat} {request : AddRequest}
    (hrequest : l.adds[place]? = some request)
    (hcounter : (l.step (.addProceeds place)).service.registry.nextId < Int64.maxValue) :
    (l.step (.addProceeds place)).GivenOnce := by
  obtain ⟨hadds, hregistry⟩ := step_addProceeds hrequest
  have hle := l.nextId_le_step (.addProceeds place)
  obtain ⟨rest, hbefore, hafter⟩ := perm_filterMap_set (g := AddRequest.givenId?) hrequest
  have hnext := hafter (request.step l.service.registry).2
  rw [← hadds] at hnext
  have hnodup := hbefore.nodup_iff.mp h.nodup
  have hbound : ∀ id ∈ request.givenId?.toList ++ rest, id < l.service.registry.nextId :=
    fun id hid => h.bound id (hbefore.mem_iff.mpr hid)
  rcases request.givenId?_step l.service.registry with hgone | hkept | ⟨hnone, hgiven, hnumber⟩
  · rw [hgone] at hnext
    refine ⟨hnext.nodup_iff.mpr (List.nodup_append.mp hnodup).2.1, fun id hid => ?_⟩
    have hold := hbound id (List.mem_append_right _ (hnext.mem_iff.mp hid))
    exact Int64.lt_of_lt_of_le hold hle
  · rw [hkept] at hnext
    refine ⟨hnext.nodup_iff.mpr hnodup, fun id hid => ?_⟩
    exact Int64.lt_of_lt_of_le (hbound id (hnext.mem_iff.mp hid)) hle
  · rw [hgiven] at hnext
    rw [hnone] at hnodup hbound
    have hrises : l.service.registry.nextId <
        (l.step (.addProceeds place)).service.registry.nextId := by
      rw [hregistry, hnumber]
      exact FilterId.lt_next (Int64.lt_of_le_of_lt hle hcounter)
    have hnew : l.service.registry.nextId ∉ rest := fun hmem => Int64.lt_irrefl (hbound _ hmem)
    refine ⟨hnext.nodup_iff.mpr (List.nodup_cons.mpr ⟨hnew, hnodup⟩), fun id hid => ?_⟩
    rcases List.mem_cons.mp (hnext.mem_iff.mp hid) with rfl | hold
    · exact hrises
    · exact Int64.lt_of_lt_of_le (hbound id hold) hle

theorem GivenOnce.step (h : l.GivenOnce) (e : ServiceEvent)
    (hcounter : (l.step e).service.registry.nextId < Int64.maxValue) : (l.step e).GivenOnce := by
  have hsame : (l.step e).adds.filterMap AddRequest.givenId? =
      l.adds.filterMap AddRequest.givenId? → (l.step e).GivenOnce := by
    intro hadds
    refine ⟨hadds ▸ h.nodup, fun id hid => ?_⟩
    exact Int64.lt_of_lt_of_le (h.bound id (hadds ▸ hid)) (l.nextId_le_step e)
  rcases l.adds_step e with
    ⟨url, name, enabled, -, hadds⟩ | ⟨place, request, rfl, hrequest⟩ | ⟨-, hadds, -⟩
  · have hnone : [AddRequest.begin url name enabled].filterMap AddRequest.givenId? = [] := by
      unfold AddRequest.begin
      split <;> rfl
    exact hsame (by rw [hadds, List.filterMap_append, hnone, List.append_nil])
  · exact h.proceeds hrequest hcounter
  · exact hsame (by rw [hadds])

theorem givenOnce_run (h : l.GivenOnce)
    (hcounter : (l.run events).service.registry.nextId < Int64.maxValue) :
    (l.run events).GivenOnce := by
  induction events generalizing l with
  | nil => exact h
  | cons e rest ih =>
    have hnow := Int64.lt_of_le_of_lt (nextId_le_run (l.step e) rest) hcounter
    exact ih (h.step e hnow) hcounter

theorem GivenOnce.added (h : l.GivenOnce) : (l.added.map (·.id)).Nodup := by
  have hids : l.added.map (·.id) =
      (l.adds.filter (·.info?.isSome)).filterMap AddRequest.givenId? := by
    rw [LiveService.added, List.map_filterMap, List.filterMap_filter]
    refine List.filterMap_congr fun request _ => ?_
    rcases request with _ | _ | _ | (_ | _) <;> rfl
  rw [hids]
  exact h.nodup.sublist (List.filter_sublist.filterMap _)

theorem urls_run (h : (l.service.registry.filters.map (·.url)).Nodup) (events : List ServiceEvent) :
    ((l.run events).service.registry.filters.map (·.url)).Nodup := by
  induction events generalizing l with
  | nil => exact h
  | cons e rest ih => exact ih (urls_step h e)

theorem length_run (hurls : (l.service.registry.filters.map (·.url)).Nodup)
    (events : List ServiceEvent) :
    (l.run events).service.registry.filters.length + (l.run events).removed.length + l.added.length =
      l.service.registry.filters.length + l.removed.length + (l.run events).added.length := by
  induction events generalizing l with
  | nil => rfl
  | cons e rest ih =>
    have hfirst := length_step hurls e
    have hrest := ih (urls_step hurls e)
    rw [run_cons]
    omega

/-- Starting with distinct URLs and no request under way, let anything happen. Every request to add
does what its answer says, URLs are distinct at every moment, and the length of the list follows
from the requests that have succeeded. While ids are left, the ids of these are distinct. -/
theorem adds_linearizable (hurls : (l.service.registry.filters.map (·.url)).Nodup)
    (hadds : l.adds = []) (hremovals : l.removals = []) (events : List ServiceEvent) :
    let last := l.run events
    last.adds.length = (calls events).length ∧
    (∀ place call, (calls events)[place]? = some call → l.Fulfils events place call) ∧
    (∀ first, first <+: events → ((l.run first).service.registry.filters.map (·.url)).Nodup) ∧
    last.service.registry.filters.length + last.removed.length =
      l.service.registry.filters.length + last.added.length ∧
    (last.service.registry.nextId < Int64.maxValue → (last.added.map (·.id)).Nodup) := by
  intro last
  have haccounted := accounted_run hadds events
  have hlength := length_run hurls events
  have hadded : l.added = [] := by rw [added, hadds]; rfl
  have hremoved : l.removed = [] := by rw [removed, hremovals]; rfl
  have hgiven : l.GivenOnce := ⟨by rw [hadds]; exact List.nodup_nil, by rw [hadds]; exact nofun⟩
  rw [hadded, hremoved] at hlength
  exact ⟨haccounted.length, fun place call hcall => haccounted.fulfils hcall,
    fun first _ => urls_run hurls first, hlength,
    fun hcounter => (givenOnce_run hgiven hcounter).added⟩

/-- Two requests for one URL pass the check before either appends. The URL that is listed at first
is asked for while it is there, and once more when it is gone. -/
def racingAdds : List ServiceEvent :=
  [.addBegins "http://b" "first" true, .addBegins "http://b" "second" false, .addProceeds 0,
    .addProceeds 1, .addBegins "http://a" "early" true, .addProceeds 2,
    .switches Faults.noneFor "http://a" false, .addProceeds 1, .addProceeds 0,
    .removeBegins "http://a", .addProceeds 1, .addProceeds 0, .addBegins "http://a" "late" true,
    .addProceeds 3, .addProceeds 3, .removeProceeds 0 Faults.none, .addProceeds 3]

theorem racingAdds_linearizable :
    let start : LiveService :=
      { service :=
          { registry := { filters := [{ id := 1, url := "http://a", enabled := true }], nextId := 2 }
            store := { path := "cache" } } }
    let last := start.run racingAdds
    (start.service.registry.filters.map (·.url)).Nodup ∧
      last.added.map (fun info => (info.id, info.url, info.name, info.enabled)) =
        [(2, "http://b", "second", false), (4, "http://a", "late", true)] ∧
      last.removed.map (·.url) = ["http://a"] ∧
      last.service.registry.filters.length = 2 ∧
      start.Fulfils racingAdds 0 ⟨"http://b", "first", true⟩ ∧
      (last.added.map (·.id)).Nodup := by
  intro start last
  have hurls : (start.service.registry.filters.map (·.url)).Nodup := by decide
  obtain ⟨-, hfulfils, -, -, hids⟩ := adds_linearizable hurls rfl rfl racingAdds
  exact ⟨hurls, by decide +kernel, by decide +kernel, by decide +kernel, hfulfils 0 _ rfl,
    hids (by decide +kernel)⟩

end LiveService

end FilterLists
