import FilterLists.Proofs.Refresh.Copies
import FilterLists.Proofs.Refresh.Step
import FilterLists.Proofs.Registry.Numbering

/-! Ids name filters for good. An id is in use while its filter is listed, about to be listed or
about to lose its file; no two uses are of the same id, and a working copy never has the id of a
filter that it is not a copy of. -/
namespace FilterLists

section PermSet
variable {α β : Type} {g : α → Option β} {l : List α} {place : Nat} {a : α}

theorem filterMap_cons_eq_append (g : α → Option β) (a : α) (l : List α) :
    (a :: l).filterMap g = (g a).toList ++ l.filterMap g := by
  cases h : g a <;> simp [h]

/-- The change of one element of a list, seen in what the elements yield. -/
theorem perm_filterMap_set (h : l[place]? = some a) :
    ∃ rest, (l.filterMap g).Perm ((g a).toList ++ rest) ∧
      ∀ b, ((l.set place b).filterMap g).Perm ((g b).toList ++ rest) := by
  induction l generalizing place with
  | nil => cases h
  | cons first others ih =>
    cases place with
    | zero =>
      cases h
      refine ⟨others.filterMap g, ?_, fun b => ?_⟩
      · rw [filterMap_cons_eq_append]
      · rw [List.set_cons_zero, filterMap_cons_eq_append]
    | succ place =>
      obtain ⟨rest, hbefore, hafter⟩ := ih h
      refine ⟨(g first).toList ++ rest, ?_, fun b => ?_⟩
      · rw [filterMap_cons_eq_append]
        exact (hbefore.append_left _).trans (List.perm_append_comm_assoc _ _ _)
      · rw [List.set_cons_succ, filterMap_cons_eq_append]
        exact ((hafter b).append_left _).trans (List.perm_append_comm_assoc _ _ _)

end PermSet

def AddRequest.pendingId? : AddRequest → Option FilterId
  | .appending f => some f.id
  | _ => none

def RemoveRequest.pendingId? : RemoveRequest → Option FilterId
  | .deleting f => some f.id
  | .answered _ => none

namespace LiveService

/-- The ids in use. -/
def ids (l : LiveService) : List FilterId :=
  l.service.registry.filters.map (·.id) ++
    (l.adds.filterMap AddRequest.pendingId? ++ l.removals.filterMap RemoveRequest.pendingId?)

variable {l : LiveService}

theorem nextId_le_step (e : ServiceEvent) :
    l.service.registry.nextId ≤ (l.step e).service.registry.nextId := by
  have hsame : l.service.registry.nextId ≤ l.service.registry.nextId := Int64.le_refl _
  cases e with
  | cycleEnds place =>
    rcases l.cycleEnds_cases place with ⟨c, _, _, hservice, _⟩ | heq
    · rw [hservice, Cycle.registry_conclude, Registry.merge, (Registry.mergeFrom_frame _ _ _).1]
      exact hsame
    · rw [heq]
      exact hsame
  | addProceeds place =>
    cases hrequest : l.adds[place]? with
    | none => simpa only [step, hrequest] using hsame
    | some request =>
      rw [(step_addProceeds hrequest).2]
      generalize hnext : request.step l.service.registry = next
      cases AddRequest.isStep hnext with
      | numbers => exact FilterId.le_next _
      | refuses | passes | yields | appends | rests => exact hsame
  | removeBegins url =>
    simp only [step]
    rcases removeBegin_cases l.service.registry url with ⟨result, heq⟩ | ⟨f, kept, _, _, heq⟩ <;>
      rw [heq] <;> exact hsame
  | switches faults url enabled =>
    simp only [step, Service.setEnabled, Registry.setEnabled]
    split <;> exact hsame
  | loadsAll faults => exact Registry.le_assignMissing _ _
  | assignsId => exact FilterId.le_next _
  | raisesIdFloor filters => exact Registry.le_raised _ _
  | downloadStarts place faults =>
    rw [(l.downloadStarts_frame place faults).1]
    exact hsame
  | persists place ticket faults now =>
    rw [(l.persists_frame place ticket faults now).1]
    exact hsame
  | removeProceeds place faults =>
    rw [(l.removeProceeds_frame place faults).1]
    exact hsame
  | cycleBegins | downloadEnds | addBegins | deduplicates | setsUserRules | fileVanishes =>
    exact hsame

theorem nextId_le_run (l : LiveService) (events : List ServiceEvent) :
    l.service.registry.nextId ≤ (l.run events).service.registry.nextId := by
  induction events generalizing l with
  | nil => exact Int64.le_refl _
  | cons e rest ih => exact Int64.le_trans (l.nextId_le_step e) (ih (l.step e))

theorem ids_of_map_eq {m : LiveService}
    (hfilters : m.service.registry.filters.map (·.id) = l.service.registry.filters.map (·.id))
    (hadds : m.adds = l.adds) (hremovals : m.removals = l.removals) : m.ids = l.ids := by
  simp only [ids, hfilters, hadds, hremovals]

theorem ids_addProceeds (place : Nat) :
    (l.step (.addProceeds place)).ids.Subperm l.ids ∨
      (l.step (.addProceeds place)).ids.Subperm (l.service.registry.nextId :: l.ids) ∧
        (l.step (.addProceeds place)).service.registry.nextId =
          FilterId.next l.service.registry.nextId := by
  simp only [step]
  cases hrequest : l.adds[place]? with
  | none => exact .inl (List.Subperm.refl _)
  | some request =>
    obtain ⟨rest, hbefore, hafter⟩ := perm_filterMap_set (g := AddRequest.pendingId?) hrequest
    have hanswered : ∀ next : AddRequest, next.pendingId? = none →
        ({ l with adds := l.adds.set place next } : LiveService).ids.Subperm l.ids := by
      intro next hnext
      have hset := hafter next
      rw [hnext] at hset
      have hadds : ((l.adds.set place next).filterMap AddRequest.pendingId?).Subperm
          (l.adds.filterMap AddRequest.pendingId?) :=
        hset.subperm.trans ((List.sublist_append_right _ _).subperm.trans hbefore.symm.subperm)
      exact (List.subperm_append_left _).mpr ((List.subperm_append_right _).mpr hadds)
    dsimp only
    generalize hnext : request.step l.service.registry = next
    cases AddRequest.isStep hnext with
    | refuses | passes | yields | rests => exact .inl (hanswered _ rfl)
    | @numbers url name enabled =>
      right
      have hset := hafter (.appending { id := l.service.registry.nextId, url, name, enabled })
      refine ⟨List.Perm.subperm ?_, rfl⟩
      have hadds := hset.trans (hbefore.symm.cons l.service.registry.nextId)
      exact ((hadds.append_right _).append_left _).trans List.perm_middle
    | @appends f _ =>
      left
      have hadds := ((hafter (.answered (.ok f.info))).append_left [f.id]).trans hbefore.symm
      simp only [ids, withRegistry, List.map_append, List.map_singleton, List.append_assoc]
      rw [← List.append_assoc [f.id]]
      exact ((hadds.append_right _).append_left _).subperm

theorem ids_removeBegins (url : String) : (l.step (.removeBegins url)).ids.Perm l.ids := by
  simp only [step]
  rcases removeBegin_cases l.service.registry url with ⟨result, heq⟩ | ⟨f, kept, hperm, _, heq⟩
  · rw [heq]
    have hnone : [RemoveRequest.answered result].filterMap RemoveRequest.pendingId? = [] := rfl
    simp only [ids, withRegistry, List.filterMap_append, hnone, List.append_nil]
    exact List.Perm.refl _
  · rw [heq]
    have hids := hperm.map (·.id)
    simp only [ids, withRegistry, List.filterMap_append, List.filterMap_cons, List.filterMap_nil,
      RemoveRequest.pendingId?]
    rw [← List.append_assoc, ← List.append_assoc, ← List.append_assoc]
    refine (List.perm_append_singleton _ _).trans ?_
    rw [List.append_assoc, List.append_assoc]
    exact (hids.append_right _).symm

theorem ids_removeProceeds (place : Nat) (faults : Faults) :
    (l.step (.removeProceeds place faults)).ids.Subperm l.ids := by
  simp only [step]
  cases hrequest : l.removals[place]? with
  | none => exact List.Subperm.refl _
  | some request =>
    obtain ⟨rest, hbefore, hafter⟩ := perm_filterMap_set (g := RemoveRequest.pendingId?) hrequest
    have hnone : (request.step l.service.store faults).2.pendingId? = none := by
      cases request <;> rfl
    have hset := hafter (request.step l.service.store faults).2
    rw [hnone] at hset
    have hsub : ((l.removals.set place (request.step l.service.store faults).2).filterMap
        RemoveRequest.pendingId?).Subperm (l.removals.filterMap RemoveRequest.pendingId?) :=
      hset.subperm.trans ((List.sublist_append_right _ _).subperm.trans hbefore.symm.subperm)
    exact (List.subperm_append_left _).mpr ((List.subperm_append_left _).mpr hsub)

theorem ids_step (hids : ∀ f ∈ l.service.registry.filters, f.id ≠ 0) (e : ServiceEvent) :
    (l.step e).ids.Subperm l.ids ∨
      (l.step e).ids.Subperm (l.service.registry.nextId :: l.ids) ∧
        (l.step e).service.registry.nextId = FilterId.next l.service.registry.nextId := by
  have hsame : ∀ {m : LiveService},
      m.service.registry.filters.map (·.id) = l.service.registry.filters.map (·.id) →
      m.adds = l.adds → m.removals = l.removals → m.ids.Subperm l.ids :=
    fun hfilters hadds hremovals => ids_of_map_eq hfilters hadds hremovals ▸ List.Subperm.refl _
  cases e with
  | addProceeds place => exact ids_addProceeds place
  | removeBegins url => exact .inl (ids_removeBegins url).subperm
  | removeProceeds place faults => exact .inl (ids_removeProceeds place faults)
  | cycleEnds place =>
    left
    rcases l.cycleEnds_cases place with ⟨c, _, _, hservice, _, _, hadds, hremovals⟩ | heq
    · refine hsame ?_ hadds hremovals
      rw [hservice, Cycle.registry_conclude, Registry.map_id_merge]
    · rw [heq]
  | addBegins url name enabled =>
    have hnone : [AddRequest.begin url name enabled].filterMap AddRequest.pendingId? = [] := by
      unfold AddRequest.begin
      split <;> rfl
    simp only [step, ids, List.filterMap_append, hnone, List.append_nil]
    exact .inl (List.Subperm.refl _)
  | switches faults url enabled =>
    left
    refine hsame ?_ rfl rfl
    exact Registry.map_id_setEnabled (l.service.store.keeps_load faults) _ url enabled
  | loadsAll faults =>
    left
    refine hsame ?_ rfl rfl
    simp only [step, Service.loadAll, Registry.loadAll_of_ne_zero hids, List.map_map]
    exact List.map_congr_left (fun f _ =>
      (Registry.loadEnabled_subscription (l.service.store.keeps_load faults) f).1)
  | deduplicates =>
    have hkept := l.service.registry.deduplicate_sublist.map (·.id)
    exact .inl ((hkept.append (List.Sublist.refl _)).subperm)
  | downloadStarts place faults =>
    obtain ⟨hservice, hadds, hremovals⟩ := l.downloadStarts_frame place faults
    exact .inl (hsame (by rw [hservice]) hadds hremovals)
  | persists place ticket faults now =>
    obtain ⟨hregistry, hadds, hremovals⟩ := l.persists_frame place ticket faults now
    exact .inl (hsame (by rw [hregistry]) hadds hremovals)
  | cycleBegins | downloadEnds | assignsId | raisesIdFloor | setsUserRules | fileVanishes =>
    exact .inl (List.Subperm.refl _)

theorem mem_ids_of_filter {f : Filter} (hf : f ∈ l.service.registry.filters) : f.id ∈ l.ids :=
  List.mem_append_left _ (List.mem_map_of_mem hf)

theorem mem_ids_of_appending {f : Filter} (hf : .appending f ∈ l.adds) : f.id ∈ l.ids :=
  List.mem_append_right _ (List.mem_append_left _ (List.mem_filterMap.mpr ⟨_, hf, rfl⟩))

/-- A working copy may have this id and URL: no filter with another URL has the id now or can get
it. -/
def MayCopy (l : LiveService) (id : FilterId) (url : String) : Prop :=
  id < l.service.registry.nextId ∧
    (∀ f ∈ l.service.registry.filters, f.id = id → f.url = url) ∧
    ∀ f, .appending f ∈ l.adds → f.id ≠ id

/-- Ids in use are distinct, positive and below the counter. The working copies of a cycle are of
distinct filters, and no other filter has the id of one of them. -/
structure Identified (l : LiveService) : Prop where
  distinct : l.ids.Nodup
  bounds : ∀ id ∈ l.ids, 0 < id ∧ id < l.service.registry.nextId
  counter : 0 < l.service.registry.nextId
  cycles : ∀ c ∈ l.cycles, c.Distinct
  copies : ∀ c ∈ l.cycles, ∀ g ∈ c.copies, l.MayCopy g.id g.url

theorem Identified.ne_zero (h : l.Identified) : ∀ id ∈ l.ids, id ≠ 0 := by
  intro id hid hzero
  have hpos := (h.bounds id hid).1
  exact Int64.lt_irrefl (hzero ▸ hpos)

theorem Identified.filters_nodup (h : l.Identified) :
    (l.service.registry.filters.map (·.id)).Nodup :=
  (List.nodup_append.mp h.distinct).1

theorem Identified.ids_step (h : l.Identified) (e : ServiceEvent)
    (hcounter : (l.step e).service.registry.nextId < Int64.maxValue) :
    (l.step e).ids.Nodup ∧
      ∀ id ∈ (l.step e).ids, 0 < id ∧ id < (l.step e).service.registry.nextId := by
  have hle := l.nextId_le_step e
  have hne := fun f hf => h.ne_zero f.id (mem_ids_of_filter (f := f) hf)
  rcases l.ids_step hne e with hold | ⟨hnew, hnext⟩
  · obtain ⟨kept, hperm, hsub⟩ := hold
    refine ⟨hperm.nodup_iff.mp (h.distinct.sublist hsub), fun id hid => ?_⟩
    obtain ⟨hpos, hlt⟩ := h.bounds id (hsub.subset (hperm.mem_iff.mpr hid))
    exact ⟨hpos, Int64.lt_of_lt_of_le hlt hle⟩
  · have hfresh : (l.service.registry.nextId :: l.ids).Nodup :=
      List.nodup_cons.mpr ⟨fun hmem => Int64.lt_irrefl (h.bounds _ hmem).2, h.distinct⟩
    have hrises : l.service.registry.nextId < (l.step e).service.registry.nextId := by
      rw [hnext]
      exact FilterId.lt_next (Int64.lt_of_le_of_lt hle hcounter)
    obtain ⟨kept, hperm, hsub⟩ := hnew
    refine ⟨hperm.nodup_iff.mp (hfresh.sublist hsub), fun id hid => ?_⟩
    rcases List.mem_cons.mp (hsub.subset (hperm.mem_iff.mpr hid)) with rfl | hused
    · exact ⟨h.counter, hrises⟩
    · obtain ⟨hpos, hlt⟩ := h.bounds id hused
      exact ⟨hpos, Int64.lt_of_lt_of_le hlt hle⟩

theorem mem_copies_begin {now : Instant} {force : Bool} {g : Filter}
    (hg : g ∈ (Cycle.begin l.service l.policy now force).copies) :
    ∃ f ∈ l.service.registry.filters, f.enabled = true ∧ f.id = g.id ∧ f.url = g.url := by
  have hwaiting : g ∈ Refresh.candidates l.service l.policy now force := by
    simpa [Cycle.begin, Cycle.copies] using hg
  rw [Refresh.candidates_eq] at hwaiting
  obtain ⟨f, hf, rfl⟩ := List.mem_map.mp hwaiting
  obtain ⟨hlisted, hdue⟩ := List.mem_filter.mp hf
  simp only [Refresh.isDue, Bool.and_eq_true] at hdue
  exact ⟨f, hlisted, hdue.2.1, rfl, rfl⟩

/-- No move of a cycle changes what its working copies are of. -/
theorem forall_copies_step {P : FilterId → String → Prop} {e : ServiceEvent}
    (h : ∀ c ∈ l.cycles, ∀ g ∈ c.copies, P g.id g.url)
    (hbegin : ∀ now force, e = .cycleBegins now force →
      ∀ g ∈ (Cycle.begin l.service l.policy now force).copies, P g.id g.url) :
    ∀ d ∈ (l.step e).cycles, ∀ g ∈ d.copies, P g.id g.url :=
  forall_cycles_step h hbegin (fun _ _ _ _ hc hl => Cycle.forall_copies_launch hc hl)
    (fun _ ticket reply hc => Cycle.forall_copies_receive hc ticket reply)
    (fun _ faults now ticket hc => Cycle.forall_copies_persist hc _ faults now ticket)

end LiveService

end FilterLists
