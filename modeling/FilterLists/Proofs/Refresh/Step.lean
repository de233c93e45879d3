import FilterLists.Proofs.Refresh.Conclusion
import FilterLists.Proofs.Registry.Update
import FilterLists.Proofs.Store.Effects

/-! What one event can do to the cycles, the filters and the requests of a live service. Every
invariant of a run is derived from these. -/
namespace FilterLists

/-- The cache loads nothing but the content and what follows from it. -/
theorem Store.keeps_load (s : Store) (faults : Filter → Faults) :
    Registry.Keeps (fun f => s.load (faults f) f) := by
  intro f loaded h
  rcases s.load_cases (faults f) f with ⟨content, t, _, heq⟩ | ⟨e, heq⟩
  · cases heq.symm.trans h
    exact ⟨rfl, rfl, rfl, rfl⟩
  · cases heq.symm.trans h

namespace AddRequest
variable {r : Registry} {request : AddRequest} {next : Registry × AddRequest}

/-- What a step of a request to add can do to the registry and to the request. -/
inductive IsStep (r : Registry) : AddRequest → Registry × AddRequest → Prop
  | refuses {url name : String} {enabled : Bool} (hlisted : r.contains url = true) :
      IsStep r (.checking url name enabled) (r, .answered (.error (.duplicateFilter url)))
  | passes {url name : String} {enabled : Bool} (hnew : r.contains url = false) :
      IsStep r (.checking url name enabled) (r, .numbering url name enabled)
  | numbers {url name : String} {enabled : Bool} :
      IsStep r (.numbering url name enabled)
        (r.assignId.1, .appending { id := r.nextId, url, name, enabled })
  /-- Another request has been faster. -/
  | yields {f : Filter} (hlisted : r.contains f.url = true) :
      IsStep r (.appending f) (r, .answered (.error (.duplicateFilter f.url)))
  | appends {f : Filter} (hnew : r.contains f.url = false) :
      IsStep r (.appending f) ({ r with filters := r.filters ++ [f] }, .answered (.ok f.info))
  | rests {result : Except Error FilterInfo} : IsStep r (.answered result) (r, .answered result)

theorem isStep (h : request.step r = next) : IsStep r request next := by
  subst h
  cases request with
  | checking url name enabled =>
    cases hlisted : r.contains url with
    | true =>
      simp only [step, hlisted, if_true]
      exact .refuses hlisted
    | false =>
      simp only [step, hlisted, Bool.false_eq_true, if_false]
      exact .passes hlisted
  | numbering url name enabled => exact .numbers
  | appending f =>
    cases hlisted : r.contains f.url with
    | true =>
      simp only [step, Registry.subscribe, Registry.add, hlisted, if_true]
      exact .yields hlisted
    | false =>
      simp only [step, Registry.subscribe, Registry.add, hlisted, Bool.false_eq_true,
        if_false]
      exact .appends hlisted
  | answered result => exact .rests

/-- Only a request that gets its id is about to append a filter afterwards. -/
theorem of_step_eq_appending {f : Filter} (h : (request.step r).2 = .appending f) :
    ∃ url name enabled, request = .numbering url name enabled ∧
      f = { id := r.nextId, url, name, enabled } := by
  generalize hnext : request.step r = next at h
  cases isStep hnext with
  | numbers => exact ⟨_, _, _, rfl, (appending.inj h).symm⟩
  | refuses | passes | yields | appends | rests => cases h

end AddRequest

namespace LiveService
variable {l : LiveService} {e : ServiceEvent}

theorem downloadStarts_frame (l : LiveService) (place : Nat) (faults : Faults) :
    (l.step (.downloadStarts place faults)).service = l.service ∧
      (l.step (.downloadStarts place faults)).adds = l.adds ∧
      (l.step (.downloadStarts place faults)).removals = l.removals := by
  simp only [step]
  split <;> exact ⟨rfl, rfl, rfl⟩

theorem persists_frame (l : LiveService) (place ticket : Nat) (faults : Faults) (now : Instant) :
    (l.step (.persists place ticket faults now)).service.registry = l.service.registry ∧
      (l.step (.persists place ticket faults now)).adds = l.adds ∧
      (l.step (.persists place ticket faults now)).removals = l.removals := by
  simp only [step]
  split <;> exact ⟨rfl, rfl, rfl⟩

theorem addProceeds_frame (l : LiveService) (place : Nat) :
    (l.step (.addProceeds place)).service.store = l.service.store ∧
      (l.step (.addProceeds place)).cycles = l.cycles ∧
      (l.step (.addProceeds place)).removals = l.removals := by
  simp only [step]
  split <;> exact ⟨rfl, rfl, rfl⟩

theorem removeProceeds_frame (l : LiveService) (place : Nat) (faults : Faults) :
    (l.step (.removeProceeds place faults)).service.registry = l.service.registry ∧
      (l.step (.removeProceeds place faults)).cycles = l.cycles ∧
      (l.step (.removeProceeds place faults)).adds = l.adds := by
  simp only [step]
  split <;> exact ⟨rfl, rfl, rfl⟩

/-- A cycle after an event was there before, has just begun, or has made a move of its own. -/
theorem mem_cycles_step {d : Cycle} (hd : d ∈ (l.step e).cycles) :
    d ∈ l.cycles ∨
    (∃ now force, e = .cycleBegins now force ∧ d = .begin l.service l.policy now force) ∨
    (∃ place faults c f, e = .downloadStarts place faults ∧ l.cycles[place]? = some c ∧
      c.launch? l.service.store faults l.policy.limit = some (d, f)) ∨
    (∃ place ticket reply c, e = .downloadEnds place ticket reply ∧ l.cycles[place]? = some c ∧
      d = c.receive ticket reply) ∨
    (∃ place ticket faults now c, e = .persists place ticket faults now ∧
      l.cycles[place]? = some c ∧ d = (c.persist l.service.store faults now ticket).2) := by
  cases e with
  | cycleBegins now force =>
    rcases List.mem_append.mp hd with hold | hnew
    · exact .inl hold
    · exact .inr (.inl ⟨now, force, rfl, List.mem_singleton.mp hnew⟩)
  | downloadStarts place faults =>
    cases hlaunched : l.cycles[place]?.bind
      (Cycle.launch? l.service.store faults l.policy.limit) with
    | none =>
      simp only [step, hlaunched] at hd
      exact .inl hd
    | some launched =>
      simp only [step, hlaunched] at hd
      obtain ⟨c, hc, hl⟩ := Option.bind_eq_some_iff.mp hlaunched
      rcases List.mem_or_eq_of_mem_set hd with hold | rfl
      · exact .inl hold
      · exact .inr (.inr (.inl ⟨place, faults, c, launched.2, rfl, hc, hl⟩))
  | downloadEnds place ticket reply =>
    obtain ⟨i, hi⟩ := List.getElem?_of_mem hd
    simp only [step, List.getElem?_modify] at hi
    obtain ⟨c, hc, hmoved⟩ := Option.map_eq_some_iff.mp hi
    split_ifs at hmoved with hplace
    · subst hplace
      exact .inr (.inr (.inr (.inl ⟨place, ticket, reply, c, rfl, hc, hmoved.symm⟩)))
    · cases hmoved
      exact .inl (List.mem_of_getElem? hc)
  | persists place ticket faults now =>
    cases hc : l.cycles[place]? with
    | none =>
      simp only [step, hc] at hd
      exact .inl hd
    | some c =>
      simp only [step, hc] at hd
      rcases List.mem_or_eq_of_mem_set hd with hold | rfl
      · exact .inl hold
      · exact .inr (.inr (.inr (.inr ⟨place, ticket, faults, now, c, rfl, hc, rfl⟩)))
  | cycleEnds place =>
    rcases l.cycleEnds_cases place with ⟨c, _, _, _, hcycles, _⟩ | heq
    · exact .inl (List.mem_of_mem_eraseIdx (hcycles ▸ hd))
    · exact .inl (heq ▸ hd)
  | addProceeds place => exact .inl ((l.addProceeds_frame place).2.1 ▸ hd)
  | removeProceeds place faults => exact .inl ((l.removeProceeds_frame place faults).2.1 ▸ hd)
  | addBegins | removeBegins | switches | loadsAll | deduplicates | assignsId | raisesIdFloor
  | setsUserRules | fileVanishes => exact .inl hd

/-- What holds of the cycles under way and is kept by their own moves holds of them after an event,
if it holds of one that begins. -/
theorem forall_cycles_step {P : Cycle → Prop} (h : ∀ c ∈ l.cycles, P c)
    (hbegin : ∀ now force, e = .cycleBegins now force → P (.begin l.service l.policy now force))
    (hlaunch : ∀ c d faults f, P c →
      c.launch? l.service.store faults l.policy.limit = some (d, f) → P d)
    (hreceive : ∀ c ticket reply, P c → P (c.receive ticket reply))
    (hpersist : ∀ c faults now ticket, P c → P (c.persist l.service.store faults now ticket).2) :
    ∀ d ∈ (l.step e).cycles, P d := by
  intro d hd
  rcases mem_cycles_step hd with hold | ⟨now, force, he, rfl⟩ | ⟨place, faults, c, f, _, hc, hl⟩ |
    ⟨place, ticket, reply, c, _, hc, rfl⟩ | ⟨place, ticket, faults, now, c, _, hc, rfl⟩
  · exact h d hold
  · exact hbegin now force he
  · exact hlaunch c d faults f (h c (List.mem_of_getElem? hc)) hl
  · exact hreceive c ticket reply (h c (List.mem_of_getElem? hc))
  · exact hpersist c faults now ticket (h c (List.mem_of_getElem? hc))

theorem step_addProceeds {place : Nat} {request : AddRequest} (h : l.adds[place]? = some request) :
    (l.step (.addProceeds place)).adds = l.adds.set place (request.step l.service.registry).2 ∧
      (l.step (.addProceeds place)).service.registry = (request.step l.service.registry).1 := by
  constructor <;> simp only [step, h, withRegistry]

/-- A request to remove takes one filter away, or finds none. -/
theorem removeBegin_cases (r : Registry) (url : String) :
    (∃ result, RemoveRequest.begin r url = (r, .answered result)) ∨
    (∃ f kept, r.filters.Perm (f :: kept) ∧ kept.Sublist r.filters ∧
      RemoveRequest.begin r url = ({ r with filters := kept }, .deleting f)) := by
  have hsub := r.remove_sublist url
  unfold RemoveRequest.begin Registry.remove Registry.get? at *
  cases hfind : r.filters.find? (fun f => f.url = url) with
  | none => exact .inl ⟨_, rfl⟩
  | some f =>
    exact .inr ⟨f, _, Registry.perm_cons_eraseP hfind, hsub, rfl⟩

theorem forall_filters_addRequest {P : Filter → Prop} {r : Registry} (h : ∀ f ∈ r.filters, P f)
    (request : AddRequest) (hadd : ∀ f, request = .appending f → P f) :
    ∀ f ∈ (request.step r).1.filters, P f := by
  generalize hnext : request.step r = next
  cases AddRequest.isStep hnext with
  | appends _ =>
    exact List.forall_mem_append.mpr ⟨h, List.forall_mem_singleton.mpr (hadd _ rfl)⟩
  | refuses | passes | numbers | yields | rests => exact h

/-- A step of a request leaves the filters that are listed in their places. -/
theorem prefix_addRequest (request : AddRequest) (r : Registry) :
    r.filters <+: (request.step r).1.filters := by
  generalize hnext : request.step r = next
  cases AddRequest.isStep hnext with
  | appends _ => exact List.prefix_append _ _
  | refuses | passes | numbers | yields | rests => exact List.prefix_rfl

/-- A property of all filters is kept by an event if it is kept by the switch, the load or the merge
that the event is. -/
theorem forall_filters_of_event {P : Filter → Prop} (e : ServiceEvent)
    (h : ∀ f ∈ l.service.registry.filters, P f) (hadd : ∀ f, .appending f ∈ l.adds → P f)
    (hswitch : ∀ faults url enabled, e = .switches faults url enabled →
      ∀ f ∈ (l.service.registry.setEnabled (l.service.loader faults) url enabled).1.filters, P f)
    (hload : ∀ faults, e = .loadsAll faults →
      ∀ f ∈ (l.service.registry.loadAll (l.service.loader faults)).filters, P f)
    (hmerge : ∀ place c, e = .cycleEnds place → l.cycles[place]? = some c →
      ∀ f ∈ (l.service.registry.merge c.results).1.filters, P f) :
    ∀ f ∈ (l.step e).service.registry.filters, P f := by
  cases e with
  | cycleEnds place =>
    rcases l.cycleEnds_cases place with ⟨c, hc, _, hservice, _⟩ | heq
    · rw [hservice, Cycle.registry_conclude]
      exact hmerge place c rfl hc
    · rw [heq]
      exact h
  | addProceeds place =>
    simp only [step]
    cases hrequest : l.adds[place]? with
    | none => exact h
    | some request =>
      exact forall_filters_addRequest h request
        (fun f hf => hadd f (hf ▸ List.mem_of_getElem? hrequest))
  | removeBegins url =>
    intro f hf
    simp only [step] at hf
    rcases removeBegin_cases l.service.registry url with ⟨result, heq⟩ | ⟨g, kept, _, hsub, heq⟩
    · rw [heq] at hf
      exact h f hf
    · rw [heq] at hf
      exact h f (hsub.subset hf)
  | switches faults url enabled => exact hswitch faults url enabled rfl
  | loadsAll faults => exact hload faults rfl
  | deduplicates =>
    exact fun f hf => h f (l.service.registry.deduplicate_sublist.subset hf)
  | downloadStarts place faults =>
    rw [(l.downloadStarts_frame place faults).1]
    exact h
  | persists place ticket faults now =>
    rw [(l.persists_frame place ticket faults now).1]
    exact h
  | removeProceeds place faults =>
    rw [(l.removeProceeds_frame place faults).1]
    exact h
  | cycleBegins | downloadEnds | addBegins | assignsId | raisesIdFloor | setsUserRules
  | fileVanishes => exact h

/-- A property of all filters is kept by an event if what the event does to one filter keeps it, or
the merge at the end of a cycle does. -/
theorem forall_filters_step {P : Filter → Prop} (e : ServiceEvent)
    (h : ∀ f ∈ l.service.registry.filters, P f) (hadd : ∀ f, .appending f ∈ l.adds → P f)
    (hswitch : ∀ faults enabled f, P f → P (Registry.switch (l.service.loader faults) enabled f))
    (hload : ∀ faults f id, (f.id ≠ 0 → id = f.id) → P f →
      P (Registry.loadEnabled (l.service.loader faults) { f with id }))
    (hmerge : ∀ place c, e = .cycleEnds place → l.cycles[place]? = some c →
      ∀ f ∈ (l.service.registry.merge c.results).1.filters, P f) :
    ∀ f ∈ (l.step e).service.registry.filters, P f :=
  forall_filters_of_event e h hadd
    (fun faults url enabled _ =>
      Registry.forall_setEnabled url h (fun f hf => hswitch faults enabled f (h f hf)))
    (fun faults _ => Registry.forall_loadAll (fun f hf id hid => hload faults f id hid (h f hf)))
    hmerge

/-- A request that is about to append a filter has been so before, or has just got its id. -/
theorem getElem?_adds_step {place : Nat} {f : Filter}
    (hf : (l.step e).adds[place]? = some (.appending f)) :
    (l.adds[place]? = some (.appending f) ∧ e ≠ .addProceeds place) ∨
    ∃ url name enabled, e = .addProceeds place ∧
      l.adds[place]? = some (.numbering url name enabled) ∧
      f = { id := l.service.registry.nextId, url, name, enabled } := by
  cases e with
  | addBegins url name enabled =>
    left
    simp only [step] at hf
    rcases Nat.lt_or_ge place l.adds.length with hlt | hge
    · rw [List.getElem?_append_left hlt] at hf
      exact ⟨hf, by simp⟩
    · rw [List.getElem?_append_right hge] at hf
      have hbegin := List.mem_singleton.mp (List.mem_of_getElem? hf)
      unfold AddRequest.begin at hbegin
      split at hbegin <;> cases hbegin
  | addProceeds other =>
    by_cases hother : other = place
    · subst hother
      cases hrequest : l.adds[other]? with
      | none =>
        simp only [step, hrequest] at hf
        cases hf
      | some request =>
        simp only [step, hrequest] at hf
        obtain ⟨hlt, _⟩ := List.getElem?_eq_some_iff.mp hrequest
        have hnew : (request.step l.service.registry).2 = .appending f := by
          simpa [List.getElem?_set_self hlt] using hf
        obtain ⟨url, name, enabled, rfl, heq⟩ := AddRequest.of_step_eq_appending hnew
        exact .inr ⟨url, name, enabled, rfl, rfl, heq⟩
    · left
      refine ⟨?_, fun heq => hother (ServiceEvent.addProceeds.inj heq)⟩
      simp only [step] at hf
      split at hf
      · simpa [List.getElem?_set_ne hother] using hf
      · exact hf
  | cycleEnds other =>
    left
    rcases l.cycleEnds_cases other with ⟨c, _, _, _, _, _, hadds, _⟩ | heq
    · exact ⟨hadds ▸ hf, by simp⟩
    · exact ⟨heq ▸ hf, by simp⟩
  | downloadStarts other faults =>
    exact .inl ⟨(l.downloadStarts_frame other faults).2.1 ▸ hf, by simp⟩
  | persists other ticket faults now =>
    exact .inl ⟨(l.persists_frame other ticket faults now).2.1 ▸ hf, by simp⟩
  | removeProceeds other faults =>
    exact .inl ⟨(l.removeProceeds_frame other faults).2.2 ▸ hf, by simp⟩
  | cycleBegins | downloadEnds | removeBegins | switches | loadsAll | deduplicates | assignsId
  | raisesIdFloor | setsUserRules | fileVanishes => exact .inl ⟨hf, by simp⟩

theorem mem_adds_step {f : Filter} (hf : .appending f ∈ (l.step e).adds) :
    .appending f ∈ l.adds ∨
    ∃ place url name enabled, e = .addProceeds place ∧
      l.adds[place]? = some (.numbering url name enabled) ∧
      f = { id := l.service.registry.nextId, url, name, enabled } := by
  obtain ⟨place, hplace⟩ := List.getElem?_of_mem hf
  rcases getElem?_adds_step hplace with ⟨hold, _⟩ | ⟨url, name, enabled, he, hnumbering, heq⟩
  · exact .inl (List.mem_of_getElem? hold)
  · exact .inr ⟨place, url, name, enabled, he, hnumbering, heq⟩

end LiveService

end FilterLists
