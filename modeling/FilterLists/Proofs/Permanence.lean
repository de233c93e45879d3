import FilterLists.Proofs.Identity
import FilterLists.Proofs.Subscriptions

/-! Ids are given out once. A new one is above all that were ever in use, a filter that has one
keeps it, and an id that was given to a request is reserved until the request appends its filter. -/
namespace FilterLists.LiveService

/-- The ids that an event hands out: to the filters that have none, to a request to subscribe, or to
a caller who asks for one. -/
def handsOut (l : LiveService) : ServiceEvent → List FilterId
  | .loadsAll faults =>
    FilterId.given (l.service.registry.filters.map (·.id))
      ((l.service.loadAll faults).registry.filters.map (·.id))
  | .addProceeds place =>
    match l.adds[place]? with
    | some (.numbering ..) => [l.service.registry.assignId.2]
    | _ => []
  | .assignsId => [l.service.registry.assignId.2]
  | _ => []

def handedOut (l : LiveService) : List ServiceEvent → List FilterId
  | [] => []
  | e :: rest => l.handsOut e ++ (l.step e).handedOut rest

variable {l : LiveService}

theorem loadsAll_ids (l : LiveService) (faults : Filter → Faults) :
    (l.step (.loadsAll faults)).service.registry.filters.map (·.id) =
      (Registry.assignMissing l.service.registry.nextId l.service.registry.filters).1.map (·.id) :=
  Registry.map_id_loadAll (l.service.store.keeps_load faults) _

theorem exists_of_mem_loadsAll {faults : Filter → Faults} {f : Filter}
    (hf : f ∈ (l.step (.loadsAll faults)).service.registry.filters) :
    ∃ g ∈ (Registry.assignMissing l.service.registry.nextId l.service.registry.filters).1,
      g.id = f.id := by
  have hmem : f.id ∈ (l.step (.loadsAll faults)).service.registry.filters.map (·.id) :=
    List.mem_map_of_mem hf
  rw [loadsAll_ids] at hmem
  exact List.mem_map.mp hmem

theorem nextId_numbering {place : Nat} {url name : String} {enabled : Bool}
    (h : l.adds[place]? = some (.numbering url name enabled)) :
    (l.step (.addProceeds place)).service.registry.nextId =
      FilterId.next l.service.registry.nextId := by
  simp only [step, h]
  rfl

/-- The ids that an event hands out are those from the counter on. -/
theorem handsOut_step (e : ServiceEvent)
    (hcounter : (l.step e).service.registry.nextId < Int64.maxValue) :
    (l.handsOut e).Pairwise (· < ·) ∧
      ∀ id ∈ l.handsOut e, l.service.registry.nextId ≤ id ∧
        id < (l.step e).service.registry.nextId := by
  have hone : (l.step e).service.registry.nextId = FilterId.next l.service.registry.nextId →
      [l.service.registry.nextId].Pairwise (· < ·) ∧
        ∀ id ∈ [l.service.registry.nextId], l.service.registry.nextId ≤ id ∧
          id < (l.step e).service.registry.nextId := by
    intro hnext
    have hlt := FilterId.lt_next (Int64.lt_of_le_of_lt (l.nextId_le_step e) hcounter)
    refine ⟨List.pairwise_singleton _ _, List.forall_mem_singleton.mpr ⟨Int64.le_refl _, ?_⟩⟩
    rw [hnext]
    exact hlt
  cases e with
  | loadsAll faults =>
    have hlast : (Registry.assignMissing l.service.registry.nextId
        l.service.registry.filters).2 < Int64.maxValue := hcounter
    have hgiven := Registry.given_assignMissing hlast
    rw [← l.loadsAll_ids faults] at hgiven
    exact hgiven
  | addProceeds place =>
    cases hrequest : l.adds[place]? with
    | none => simp [handsOut, hrequest]
    | some request =>
      cases request with
      | numbering url name enabled =>
        simp only [handsOut, hrequest]
        exact hone (nextId_numbering hrequest)
      | checking | appending | answered => simp [handsOut, hrequest]
  | assignsId => exact hone rfl
  | cycleBegins | downloadStarts | downloadEnds | persists | cycleEnds | addBegins | removeBegins
  | removeProceeds | switches | deduplicates | raisesIdFloor | setsUserRules | fileVanishes =>
    simp [handsOut]

/-- The ids that a run hands out rise, from the counter on. -/
theorem handedOut_run {events : List ServiceEvent}
    (hcounter : (l.run events).service.registry.nextId < Int64.maxValue) :
    (l.handedOut events).Pairwise (· < ·) ∧
      ∀ id ∈ l.handedOut events, l.service.registry.nextId ≤ id := by
  induction events generalizing l with
  | nil => simp [handedOut]
  | cons e rest ih =>
    have hlater := nextId_le_run (l.step e) rest
    obtain ⟨hrises, hbounds⟩ := l.handsOut_step e (Int64.lt_of_le_of_lt hlater hcounter)
    obtain ⟨hrises', hbounds'⟩ := ih (l := l.step e) hcounter
    refine ⟨List.pairwise_append.mpr ⟨hrises, hrises', fun id hid later hlater => ?_⟩, ?_⟩
    · exact Int64.lt_of_lt_of_le (hbounds id hid).2 (hbounds' later hlater)
    · intro id hid
      rcases List.mem_append.mp hid with hnow | hafter
      · exact (hbounds id hnow).1
      · exact Int64.le_trans (l.nextId_le_step e) (hbounds' id hafter)

/-- All ids in use are below the counter, and the id of a request that is about to append its filter
is nobody else's. -/
structure Reserved (l : LiveService) : Prop where
  listed : ∀ f ∈ l.service.registry.filters, f.id < l.service.registry.nextId
  requested : ∀ f, .appending f ∈ l.adds → f.id < l.service.registry.nextId
  unlisted : ∀ f, .appending f ∈ l.adds → ∀ g ∈ l.service.registry.filters, g.id ≠ f.id
  distinct : ∀ (place other : Nat) (f g : Filter), l.adds[place]? = some (.appending f) →
    l.adds[other]? = some (.appending g) → f.id = g.id → place = other

theorem Reserved.listed_step (h : l.Reserved) (e : ServiceEvent)
    (hcounter : (l.step e).service.registry.nextId < Int64.maxValue) :
    ∀ f ∈ (l.step e).service.registry.filters, f.id < (l.step e).service.registry.nextId := by
  intro f hf
  have hle := l.nextId_le_step e
  rcases l.subscriptions_step e with ⟨faults, rfl⟩ | ⟨place, g, _, hg, _, hfilters⟩ | hsub
  · obtain ⟨g, hg, hid⟩ := exists_of_mem_loadsAll hf
    exact hid ▸ Registry.lt_assignMissing h.listed hcounter g hg
  · rw [hfilters] at hf
    rcases List.mem_append.mp hf with hold | hnew
    · exact Int64.lt_of_lt_of_le (h.listed f hold) hle
    · rw [List.mem_singleton.mp hnew]
      exact Int64.lt_of_lt_of_le (h.requested g (List.mem_of_getElem? hg)) hle
  · obtain ⟨g, hg, hid, _⟩ := exists_of_mem_subscriptions (hsub.subset (mem_subscriptions hf))
    exact hid ▸ Int64.lt_of_lt_of_le (h.listed g hg) hle

/-- A filter that an event lists has not got the id of a request that is still waiting. -/
theorem Reserved.unlisted_step (h : l.Reserved) {e : ServiceEvent} {place : Nat} {f : Filter}
    (hf : l.adds[place]? = some (.appending f)) (he : e ≠ .addProceeds place) :
    ∀ g ∈ (l.step e).service.registry.filters, g.id ≠ f.id := by
  have hmem : .appending f ∈ l.adds := List.mem_of_getElem? hf
  intro g hg
  rcases l.subscriptions_step e with ⟨faults, rfl⟩ | ⟨other, new, rfl, hnew, _, hfilters⟩ | hsub
  · obtain ⟨g', hg', hid⟩ := exists_of_mem_loadsAll hg
    rcases Registry.mem_assignMissing hg' with ⟨hold, _⟩ | ⟨hle, _⟩
    · exact hid ▸ h.unlisted f hmem g' hold
    · exact fun heq => Int64.lt_irrefl
        (Int64.lt_of_lt_of_le (h.requested f hmem) (heq ▸ hid ▸ hle))
  · rw [hfilters] at hg
    rcases List.mem_append.mp hg with hold | hlast
    · exact h.unlisted f hmem g hold
    · rw [List.mem_singleton.mp hlast]
      intro heq
      exact he (by rw [h.distinct other place new f hnew hf heq])
  · obtain ⟨g', hg', hid, _⟩ := exists_of_mem_subscriptions (hsub.subset (mem_subscriptions hg))
    exact hid ▸ h.unlisted f hmem g' hg'

theorem mem_filters_numbering {place : Nat} {url name : String} {enabled : Bool}
    (h : l.adds[place]? = some (.numbering url name enabled)) :
    (l.step (.addProceeds place)).service.registry.filters = l.service.registry.filters := by
  simp only [step, h]
  rfl

theorem step_reserved (h : l.Reserved) (e : ServiceEvent)
    (hcounter : (l.step e).service.registry.nextId < Int64.maxValue) : (l.step e).Reserved := by
  have hle := l.nextId_le_step e
  have hrises : ∀ {place url name enabled}, l.adds[place]? = some (.numbering url name enabled) →
      e = .addProceeds place →
      l.service.registry.nextId < (l.step e).service.registry.nextId := by
    rintro place url name enabled hnumbering rfl
    rw [nextId_numbering hnumbering]
    exact FilterId.lt_next (Int64.lt_of_le_of_lt hle hcounter)
  refine ⟨h.listed_step e hcounter, fun f hf => ?_, fun f hf => ?_, fun place other f g hf hg => ?_⟩
  · obtain ⟨place, hplace⟩ := List.getElem?_of_mem hf
    rcases getElem?_adds_step hplace with ⟨hold, _⟩ | ⟨url, name, enabled, he, hnumbering, rfl⟩
    · exact Int64.lt_of_lt_of_le (h.requested f (List.mem_of_getElem? hold)) hle
    · exact hrises hnumbering he
  · obtain ⟨place, hplace⟩ := List.getElem?_of_mem hf
    rcases getElem?_adds_step hplace with ⟨hold, he⟩ | ⟨url, name, enabled, rfl, hnumbering, rfl⟩
    · exact h.unlisted_step hold he
    · rw [mem_filters_numbering hnumbering]
      exact fun g hg heq => Int64.lt_irrefl (heq ▸ h.listed g hg)
  · intro hid
    rcases getElem?_adds_step hf with ⟨hf', _⟩ | ⟨_, _, _, he, _, rfl⟩
    · rcases getElem?_adds_step hg with ⟨hg', _⟩ | ⟨_, _, _, _, _, rfl⟩
      · exact h.distinct place other f g hf' hg' hid
      · exact absurd (hid ▸ h.requested f (List.mem_of_getElem? hf')) Int64.lt_irrefl
    · rcases getElem?_adds_step hg with ⟨hg', _⟩ | ⟨_, _, _, he', _, _⟩
      · exact absurd (hid ▸ h.requested g (List.mem_of_getElem? hg')) Int64.lt_irrefl
      · exact ServiceEvent.addProceeds.inj (he.symm.trans he')

/-- Of the filters that have ids, no two have the same, and every id is above zero. -/
structure Numbered (l : LiveService) : Prop extends Reserved l where
  urls : (l.service.registry.filters.map (·.url)).Nodup
  ids : ((l.service.registry.filters.map (·.id)).filter (· ≠ 0)).Nodup
  nonneg : ∀ f ∈ l.service.registry.filters, 0 ≤ f.id
  positive : ∀ f, .appending f ∈ l.adds → 0 < f.id
  counter : 0 < l.service.registry.nextId

theorem Numbered.ids_step (h : l.Numbered) (e : ServiceEvent)
    (hcounter : (l.step e).service.registry.nextId < Int64.maxValue) :
    (((l.step e).service.registry.filters.map (·.id)).filter (· ≠ 0)).Nodup := by
  rcases l.subscriptions_step e with ⟨faults, rfl⟩ | ⟨place, f, _, hf, _, hfilters⟩ | hsub
  · rw [loadsAll_ids]
    exact (Registry.nodup_assignMissing h.ids h.listed (Registry.hasRoom_of_lt hcounter)).filter _
  · rw [hfilters, List.map_append, List.filter_append]
    refine List.nodup_append.mpr ⟨h.ids, (List.nodup_singleton f.id).filter _, ?_⟩
    intro id hid other hother
    obtain ⟨g, hg, rfl⟩ := List.mem_map.mp (List.mem_filter.mp hid).1
    rw [List.mem_singleton.mp (List.mem_filter.mp hother).1]
    exact h.unlisted f (List.mem_of_getElem? hf) g hg
  · exact h.ids.sublist ((Sublist.ids hsub).filter _)

theorem Numbered.nonneg_step (h : l.Numbered) (e : ServiceEvent) :
    ∀ f ∈ (l.step e).service.registry.filters, 0 ≤ f.id := by
  intro f hf
  rcases l.subscriptions_step e with ⟨faults, rfl⟩ | ⟨place, g, _, hg, _, hfilters⟩ | hsub
  · obtain ⟨g, hg, hid⟩ := exists_of_mem_loadsAll hf
    rcases Registry.mem_assignMissing hg with ⟨hold, _⟩ | ⟨hle, _⟩
    · exact hid ▸ h.nonneg g hold
    · exact hid ▸ Int64.le_trans (Int64.le_of_lt h.counter) hle
  · rw [hfilters] at hf
    rcases List.mem_append.mp hf with hold | hnew
    · exact h.nonneg f hold
    · rw [List.mem_singleton.mp hnew]
      exact Int64.le_of_lt (h.positive g (List.mem_of_getElem? hg))
  · obtain ⟨g, hg, hid, _⟩ := exists_of_mem_subscriptions (hsub.subset (mem_subscriptions hf))
    exact hid ▸ h.nonneg g hg

theorem pos_appending_step (hcounter : 0 < l.service.registry.nextId)
    (hpending : ∀ f, .appending f ∈ l.adds → 0 < f.id) {e : ServiceEvent} {f : Filter}
    (hf : .appending f ∈ (l.step e).adds) : 0 < f.id := by
  rcases mem_adds_step hf with hold | ⟨place, url, name, enabled, _, _, rfl⟩
  · exact hpending f hold
  · exact hcounter

theorem step_numbered (h : l.Numbered) (e : ServiceEvent)
    (hcounter : (l.step e).service.registry.nextId < Int64.maxValue) : (l.step e).Numbered := by
  refine ⟨step_reserved h.toReserved e hcounter, urls_step h.urls e, h.ids_step e hcounter,
    h.nonneg_step e, fun f hf => pos_appending_step h.counter h.positive hf,
    Int64.lt_of_lt_of_le h.counter (l.nextId_le_step e)⟩

theorem run_numbered (h : l.Numbered) {events : List ServiceEvent}
    (hcounter : (l.run events).service.registry.nextId < Int64.maxValue) :
    (l.run events).Numbered := by
  induction events generalizing l with
  | nil => exact h
  | cons e rest ih =>
    have hlater := nextId_le_run (l.step e) rest
    exact ih (step_numbered h e (Int64.lt_of_le_of_lt hlater hcounter)) hcounter

/-- A filter keeps the id that it has. -/
theorem Numbered.id_eq_step (h : l.Numbered) (e : ServiceEvent) {f g : Filter}
    (hf : f ∈ l.service.registry.filters) (hg : g ∈ (l.step e).service.registry.filters)
    (hurl : g.url = f.url) (hid : f.id ≠ 0) : g.id = f.id := by
  have hsame : ∀ f' ∈ l.service.registry.filters, f'.url = g.url → f' = f :=
    fun f' hf' hurl' => List.inj_on_of_nodup_map h.urls hf' hf (hurl'.trans hurl)
  rcases l.subscriptions_step e with ⟨faults, rfl⟩ | ⟨place, new, _, _, hnew, hfilters⟩ | hsub
  · have hkept : ∀ g ∈ (l.step (.loadsAll faults)).service.registry.filters,
        ∃ f' ∈ l.service.registry.filters, f'.url = g.url ∧ (f'.id ≠ 0 → g.id = f'.id) := by
      refine Registry.forall_loadAll (fun f' hf' id hkeeps => ⟨f', hf', ?_⟩)
      obtain ⟨hid', hurl', _⟩ :=
        Registry.loadEnabled_subscription (l.service.store.keeps_load faults) { f' with id }
      exact ⟨hurl'.symm, fun hne => hid'.trans (hkeeps hne)⟩
    obtain ⟨f', hf', hurl', hkeeps⟩ := hkept g hg
    obtain rfl := hsame f' hf' hurl'
    exact hkeeps hid
  · rw [hfilters] at hg
    rcases List.mem_append.mp hg with hold | hlast
    · rw [hsame g hold rfl]
    · rw [List.mem_singleton.mp hlast] at hurl
      exact absurd (hurl ▸ List.mem_map_of_mem hf) hnew
  · obtain ⟨f', hf', hid', hurl'⟩ := exists_of_mem_subscriptions (hsub.subset (mem_subscriptions hg))
    rw [← hid', hsame f' hf' hurl']

theorem ne_zero_loadsAll (hcounter : 0 < l.service.registry.nextId) (faults : Filter → Faults) :
    ∀ f ∈ (l.step (.loadsAll faults)).service.registry.filters, f.id ≠ 0 := by
  intro f hf
  obtain ⟨g, hg, hid⟩ := exists_of_mem_loadsAll hf
  rcases Registry.mem_assignMissing hg with ⟨_, hne⟩ | ⟨hle, _⟩
  · exact hid ▸ hne
  · have hpos := Int64.lt_of_lt_of_le hcounter hle
    exact fun hzero => Int64.lt_irrefl (hzero ▸ hid ▸ hpos)

theorem ne_zero_step (hcounter : 0 < l.service.registry.nextId)
    (hpending : ∀ f, .appending f ∈ l.adds → 0 < f.id)
    (hall : ∀ f ∈ l.service.registry.filters, f.id ≠ 0) (e : ServiceEvent) :
    ∀ f ∈ (l.step e).service.registry.filters, f.id ≠ 0 := by
  intro f hf
  rcases l.subscriptions_step e with ⟨faults, rfl⟩ | ⟨place, g, _, hg, _, hfilters⟩ | hsub
  · exact ne_zero_loadsAll hcounter faults f hf
  · rw [hfilters] at hf
    rcases List.mem_append.mp hf with hold | hnew
    · exact hall f hold
    · rw [List.mem_singleton.mp hnew]
      have hpos := hpending g (List.mem_of_getElem? hg)
      exact fun hzero => Int64.lt_irrefl (hzero ▸ hpos)
  · obtain ⟨g, hg, hid, _⟩ := exists_of_mem_subscriptions (hsub.subset (mem_subscriptions hf))
    exact hid ▸ hall g hg

theorem run_ne_zero (h : l.Numbered) {events : List ServiceEvent}
    (hcounter : (l.run events).service.registry.nextId < Int64.maxValue)
    (hloads : (∃ faults, .loadsAll faults ∈ events) ∨
      ∀ f ∈ l.service.registry.filters, f.id ≠ 0) :
    ∀ f ∈ (l.run events).service.registry.filters, f.id ≠ 0 := by
  induction events generalizing l with
  | nil => exact hloads.resolve_left (fun ⟨_, hmem⟩ => List.not_mem_nil hmem)
  | cons e rest ih =>
    have hnow := Int64.lt_of_le_of_lt (nextId_le_run (l.step e) rest) hcounter
    refine ih (step_numbered h e hnow) hcounter ?_
    rcases hloads with ⟨faults, hmem⟩ | hall
    · rcases List.mem_cons.mp hmem with rfl | hlater
      · exact .inr (ne_zero_loadsAll h.counter faults)
      · exact .inl ⟨faults, hlater⟩
    · exact .inr (ne_zero_step h.counter h.positive hall e)

/-- The counter starts above the ids of a configuration. -/
theorem reserved_start {born : Instant} {configured : List Filter} {rules : List String}
    (hstart : l.service.registry = Registry.ofConfigured born configured rules)
    (hadds : l.adds = []) (hcounter : l.service.registry.nextId < Int64.maxValue) :
    l.Reserved := by
  have hnone : ∀ f, .appending f ∉ l.adds := by simp [hadds]
  rw [hstart] at hcounter
  constructor
  case listed =>
    rw [hstart]
    exact fun f hf => Registry.lt_raised hcounter f
      ((Registry.ofConfigured_sublist born configured rules).subset hf)
  case requested => exact fun f hf => absurd hf (hnone f)
  case unlisted => exact fun f hf => absurd hf (hnone f)
  case distinct => exact fun _ _ f _ hf => absurd (List.mem_of_getElem? hf) (hnone f)

/-- A configuration whose ids are distinct starts so, whatever the cycles bring. -/
theorem numbered_start {born : Instant} {configured : List Filter} {rules : List String}
    (hborn : born.seconds ≤ Int64.maxValue.toInt) (hnonneg : ∀ f ∈ configured, 0 ≤ f.id)
    (hdistinct : ((configured.map (·.id)).filter (· ≠ 0)).Nodup)
    (hstart : l.service.registry = Registry.ofConfigured born configured rules)
    (hadds : l.adds = []) (hcounter : l.service.registry.nextId < Int64.maxValue) :
    l.Numbered := by
  have hkept := Registry.ofConfigured_sublist born configured rules
  constructor
  case toReserved => exact reserved_start hstart hadds hcounter
  case urls =>
    rw [hstart]
    exact Registry.ofConfigured_urls born configured rules
  case ids =>
    rw [hstart]
    exact hdistinct.sublist ((hkept.map _).filter _)
  case nonneg =>
    rw [hstart]
    exact fun f hf => hnonneg f (hkept.subset hf)
  case positive => simp [hadds]
  case counter =>
    rw [hstart]
    exact Int64.lt_of_lt_of_le (Registry.pos_nextId_empty hborn) (Registry.le_raised _ configured)

/-- An id that is handed out belongs to no filter that was ever listed. -/
theorem notMem_of_handsOut (h : l.Numbered) {earlier between : List ServiceEvent} {e : ServiceEvent}
    (hcounter : (l.run ((earlier ++ between) ++ [e])).service.registry.nextId < Int64.maxValue)
    {id : FilterId} (hid : id ∈ (l.run (earlier ++ between)).handsOut e) :
    id ∉ (l.run earlier).service.registry.filters.map (·.id) := by
  rw [run_append] at hcounter
  have hnow := Int64.lt_of_le_of_lt (nextId_le_run _ [e]) hcounter
  have hpast : (l.run earlier).service.registry.nextId ≤
      (l.run (earlier ++ between)).service.registry.nextId := by
    rw [run_append]
    exact nextId_le_run _ between
  have hbefore := run_numbered h (Int64.lt_of_le_of_lt hpast hnow)
  have habove := (((l.run (earlier ++ between)).handsOut_step e hcounter).2 id hid).1
  intro hmem
  obtain ⟨f, hf, rfl⟩ := List.mem_map.mp hmem
  have hbelow := hbefore.listed f hf
  exact Int64.lt_irrefl (Int64.lt_of_lt_of_le hbelow (Int64.le_trans hpast habove))

/-- However a configuration starts, and whatever happens then while ids are left: URLs and ids stay
distinct, ids are above zero and below the counter, and each has one once all were loaded. No id is
handed out twice or was in use before, and the counter and a given id never go back. -/
theorem ids_permanent_of_run (born : Instant) (hborn : born.seconds ≤ Int64.maxValue.toInt)
    (configured : List Filter) (hnonneg : ∀ f ∈ configured, 0 ≤ f.id)
    (hdistinct : ((configured.map (·.id)).filter (· ≠ 0)).Nodup) (rules : List String)
    (store : Store) (engine : Engine) (policy : RefreshPolicy) (cycles : List Cycle)
    (events : List ServiceEvent) :
    let registry := Registry.ofConfigured born configured rules
    let start : LiveService := { service := { registry, store, engine }, policy, cycles }
    let last := (start.run events).service.registry
    last.nextId < Int64.maxValue →
    (last.filters.map (·.url)).Nodup ∧
      ((last.filters.map (·.id)).filter (· ≠ 0)).Nodup ∧
      (∀ f ∈ last.filters, f.id ≠ 0 → 1 ≤ f.id ∧ f.id < last.nextId) ∧
      ((∃ faults, .loadsAll faults ∈ events) → ∀ f ∈ last.filters, f.id ≠ 0) ∧
      (start.handedOut events).Nodup ∧
      ∀ first e rest, events = first ++ e :: rest →
        let before := start.run first
        let after := before.step e
        before.service.registry.nextId ≤ after.service.registry.nextId ∧
          (∀ id ∈ before.handsOut e, id ∉ configured.map (·.id) ∧ ∀ earlier, earlier <+: first →
            id ∉ (start.run earlier).service.registry.filters.map (·.id)) ∧
          ∀ f ∈ before.service.registry.filters, ∀ g ∈ after.service.registry.filters,
            g.url = f.url → f.id ≠ 0 → g.id = f.id := by
  intro registry start last hcounter
  have hfirst : start.service.registry.nextId < Int64.maxValue :=
    Int64.lt_of_le_of_lt (nextId_le_run start events) hcounter
  have hstart : start.Numbered := numbered_start hborn hnonneg hdistinct rfl rfl hfirst
  have hend := run_numbered hstart hcounter
  refine ⟨hend.urls, hend.ids, fun f hf hne => ⟨?_, hend.listed f hf⟩, fun hloads => ?_, ?_, ?_⟩
  · exact FilterId.one_le (hend.nonneg f hf) hne
  · exact run_ne_zero hstart hcounter (.inl hloads)
  · exact (handedOut_run hcounter).1.imp (fun hlt => Int64.ne_of_lt hlt)
  · rintro first e rest rfl before after
    have hafter : (start.run (first ++ [e])).service.registry.nextId < Int64.maxValue := by
      refine Int64.lt_of_le_of_lt (nextId_le_run _ rest) ?_
      rw [← run_append, List.append_assoc]
      exact hcounter
    have hbefore : before.service.registry.nextId < Int64.maxValue := by
      rw [run_append] at hafter
      exact Int64.lt_of_le_of_lt (nextId_le_run _ [e]) hafter
    refine ⟨before.nextId_le_step e, fun id hid => ⟨fun hmem => ?_, ?_⟩, fun f hf g hg hurl hne => ?_⟩
    · -- the configured ids are below the first counter, and this one is not
      obtain ⟨f, hf, rfl⟩ := List.mem_map.mp hmem
      have hbelow : f.id < start.service.registry.nextId := Registry.lt_raised hfirst f hf
      rw [run_append] at hafter
      have habove := ((before.handsOut_step e hafter).2 f.id hid).1
      have hgrown : start.service.registry.nextId ≤ before.service.registry.nextId :=
        nextId_le_run start first
      exact Int64.lt_irrefl (Int64.lt_of_lt_of_le hbelow (Int64.le_trans hgrown habove))
    · rintro earlier ⟨between, rfl⟩
      exact notMem_of_handsOut hstart hafter hid
    · exact (run_numbered hstart hbefore).id_eq_step e hf hg hurl hne

def partlyNumbered : List Filter :=
  [{ id := 0, url := "http://a", enabled := true }, { id := 5, url := "http://b", enabled := false },
    { id := 0, url := "http://a", enabled := false }]

/-- A filter is added, removed and added again. -/
def removedAndAddedAgain : List ServiceEvent :=
  [.loadsAll Faults.noneFor, .addBegins "http://c" "c" true, .addProceeds 0, .assignsId,
    .addProceeds 0, .addProceeds 0, .removeBegins "http://c", .addBegins "http://c" "c" true,
    .addProceeds 1, .addProceeds 1, .addProceeds 1]

theorem ids_of_removedAndAddedAgain :
    let registry := Registry.ofConfigured ⟨0⟩ partlyNumbered []
    let start : LiveService := { service := { registry, store := { path := "cache" } } }
    (∀ f ∈ partlyNumbered, 0 ≤ f.id) ∧
      ((partlyNumbered.map (·.id)).filter (· ≠ 0)).Nodup ∧
      (start.run removedAndAddedAgain).service.registry.nextId < Int64.maxValue ∧
      start.handedOut removedAndAddedAgain = [6, 7, 8, 9] ∧
      (start.run removedAndAddedAgain).service.registry.filters.map (·.id) = [6, 5, 9] ∧
      (start.handedOut removedAndAddedAgain).Nodup ∧
      ∀ f ∈ (start.run removedAndAddedAgain).service.registry.filters, f.id ≠ 0 := by
  have hnonneg : ∀ f ∈ partlyNumbered, 0 ≤ f.id := by decide
  have hdistinct : ((partlyNumbered.map (·.id)).filter (· ≠ 0)).Nodup := by decide
  have hrun := ids_permanent_of_run ⟨0⟩ (by decide) partlyNumbered hnonneg hdistinct []
    { path := "cache" } {} {} [] removedAndAddedAgain (by decide +kernel)
  refine ⟨hnonneg, hdistinct, by decide +kernel, by decide +kernel, by decide +kernel, ?_, ?_⟩
  · exact hrun.2.2.2.2.1
  · exact hrun.2.2.2.1 ⟨Faults.noneFor, List.mem_cons_self⟩

end FilterLists.LiveService
