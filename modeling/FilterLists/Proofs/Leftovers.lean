import FilterLists.Proofs.Identity
import FilterLists.Proofs.Synchrony

/-! The files that removals leave behind. A removal takes the filter from the list and then deletes
its file, and a cycle that has a working copy of the filter writes the file without asking the
list. So a file without a filter is one that a cycle has saved after the removal had deleted it. -/
namespace FilterLists

/-- A cached file, as opposed to a directory under its name. -/
def Store.HasFile (s : Store) (id : FilterId) : Prop :=
  ∃ content t, s.cached id = .ok (.file content t)

namespace Store
variable {s t : Store} {id : FilterId}

theorem HasFile.congr (h : t.HasFile id) (heq : t.cached id = s.cached id) : s.HasFile id := by
  rwa [HasFile, heq] at h

theorem HasFile.of_touched {faults : Faults} {now : Instant} (h : t.HasFile id)
    (heq : t.cached id = touched faults now (s.cached id)) : s.HasFile id := by
  obtain ⟨content, modified, hfile⟩ := h
  rw [heq] at hfile
  cases hs : s.cached id with
  | error e =>
    rw [hs] at hfile
    cases hfile
  | ok node =>
    cases node with
    | file found time => exact ⟨found, time, hs⟩
    | directory entries time =>
      rw [hs] at hfile
      cases hfile

theorem HasFile.of_erase {other : FilterId} (h : (s.erase (fileName other)).HasFile id) :
    s.HasFile id := by
  by_cases hid : id = other
  · subst hid
    rcases s.cached_erase_self id with hnone | hsame
    · obtain ⟨content, t, hfile⟩ := h
      cases hnone.symm.trans hfile
    · exact h.congr hsame
  · exact h.congr (s.cached_erase_of_ne hid)

theorem HasFile.of_remove {faults : Faults} {f : Filter} (h : (s.remove faults f).1.HasFile id) :
    s.HasFile id := by
  unfold remove at h
  split at h
  · exact h.of_erase
  · exact h
  · exact h
  · exact h

/-- Unless the device refuses it, a removal leaves no file. -/
theorem not_hasFile_remove {faults : Faults} (hfault : faults .remove = none) (f : Filter) :
    ¬ (s.remove faults f).1.HasFile f.id := by
  rintro ⟨content, t, hfile⟩
  have hentry : unlessRefused (faults .remove) (s.entry (fileName f.id)) = s.cached f.id := by
    rw [hfault]
    rfl
  unfold remove at hfile
  rw [hentry] at hfile
  cases hcached : s.cached f.id with
  | error e =>
    cases e <;> simp only [hcached] at hfile <;> cases hfile
  | ok node =>
    cases node with
    | directory entries modified =>
      simp only [hcached] at hfile
      cases hfile
    | file found modified =>
      simp only [hcached] at hfile
      have hgone := (isOpen_of_entry hcached).entry_erase_self (utf8ByteSize_fileName_le f.id)
      cases hgone.symm.trans hfile

end Store

/-- A file that is there after a working copy was written was there before, or holds new content. -/
theorem Cycle.hasFile_of_persist {s : Store} {c : Cycle} {faults : Faults} {now : Instant}
    {ticket : Nat} {id : FilterId} (h : (c.persist s faults now ticket).1.HasFile id) :
    s.HasFile id ∨ ∃ f, .fetched ticket f true ∈ c.active ∧ f.id = id ∧
      s.accepts faults f = true := by
  rcases c.persist_cases s faults now ticket with ⟨f, changed, hf, heq⟩ | heq
  · rw [heq] at h
    by_cases hid : id = f.id
    · subst hid
      cases changed with
      | true =>
        rcases Refresh.persist_changed s faults now f with ⟨haccepts, -⟩ | ⟨-, -, hsame⟩
        · exact .inr ⟨f, hf, rfl, haccepts⟩
        · exact .inl (h.congr (hsame f.id))
      | false => exact .inl (h.of_touched (Refresh.persist_unchanged s faults now f).2.1)
    · exact .inl (h.congr (Refresh.persist_cached_of_ne s faults now f changed hid))
  · rw [heq] at h
    exact .inl h

/-- Filters are given ids, and double ones dropped, before there are any cycles and requests. -/
def ServiceEvent.isOfStartup : ServiceEvent → Bool
  | .loadsAll _ | .deduplicates => true
  | _ => false

namespace LiveService
variable {l : LiveService} {e : ServiceEvent} {events : List ServiceEvent} {id : FilterId}

def HasFilter (l : LiveService) (id : FilterId) : Prop :=
  id ∈ l.service.registry.filters.map (·.id)

/-- A filter with the id is listed, or its removal has yet to delete its file. -/
def Owns (l : LiveService) (id : FilterId) : Prop :=
  l.HasFilter id ∨ ∃ f, .deleting f ∈ l.removals ∧ f.id = id

def Deletes (l : LiveService) (id : FilterId) (e : ServiceEvent) : Prop :=
  ∃ place faults f, e = .removeProceeds place faults ∧ l.removals[place]? = some (.deleting f) ∧
    f.id = id

def Saves (l : LiveService) (id : FilterId) (e : ServiceEvent) : Prop :=
  ∃ place ticket faults now c f, e = .persists place ticket faults now ∧
    l.cycles[place]? = some c ∧ .fetched ticket f true ∈ c.active ∧ f.id = id ∧
    l.service.store.accepts faults f = true

theorem hasFile_step (h : (l.step e).service.store.HasFile id) :
    l.service.store.HasFile id ∨ l.Saves id e := by
  cases e with
  | persists place ticket faults now =>
    cases hc : l.cycles[place]? with
    | none =>
      simp only [step, hc] at h
      exact .inl h
    | some c =>
      simp only [step, hc] at h
      rcases Cycle.hasFile_of_persist h with hold | ⟨f, hf, hid, haccepts⟩
      · exact .inl hold
      · exact .inr ⟨place, ticket, faults, now, c, f, rfl, hc, hf, hid, haccepts⟩
  | removeProceeds place faults =>
    left
    cases hrequest : l.removals[place]? with
    | none =>
      simp only [step, hrequest] at h
      exact h
    | some request =>
      simp only [step, hrequest] at h
      cases request with
      | deleting f => exact Store.HasFile.of_remove h
      | answered result => exact h
  | fileVanishes other => exact .inl (Store.HasFile.of_erase h)
  | cycleEnds place =>
    left
    rcases l.cycleEnds_cases place with ⟨c, -, -, hservice, -⟩ | heq
    · rw [hservice, Cycle.store_conclude] at h
      exact h
    · rwa [heq] at h
  | downloadStarts place faults => exact .inl ((l.downloadStarts_frame place faults).1 ▸ h)
  | addProceeds place => exact .inl ((l.addProceeds_frame place).1 ▸ h)
  | cycleBegins | downloadEnds | addBegins | removeBegins | switches | loadsAll | deduplicates
  | assignsId | raisesIdFloor | setsUserRules => exact .inl h

theorem Deletes.not_hasFile (h : l.Deletes id e)
    (hfaults : ∀ place faults, e = .removeProceeds place faults → faults .remove = none) :
    ¬ (l.step e).service.store.HasFile id := by
  obtain ⟨place, faults, f, rfl, hplace, rfl⟩ := h
  have hstore : (l.step (.removeProceeds place faults)).service.store =
      (l.service.store.remove faults f).1 := by
    simp only [step, hplace]
    rfl
  rw [hstore]
  exact Store.not_hasFile_remove (hfaults place faults rfl) f

theorem HasFilter.step (h : l.HasFilter id) (he : e.isOfStartup = false) : (l.step e).Owns id := by
  cases e with
  | loadsAll | deduplicates => cases he
  | removeBegins url =>
    simp only [LiveService.step]
    rcases removeBegin_cases l.service.registry url with ⟨result, heq⟩ | ⟨f, kept, hperm, -, heq⟩
    · rw [heq]
      exact .inl h
    · rw [heq]
      -- the filter that is taken is now with the request to remove it
      rcases List.mem_cons.mp ((hperm.map (·.id)).mem_iff.mp h) with htaken | hkept
      · exact .inr ⟨f, List.mem_append_right _ (List.mem_singleton_self _), htaken.symm⟩
      · exact .inl hkept
  | addProceeds place =>
    left
    simp only [LiveService.step]
    cases l.adds[place]? with
    | none => exact h
    | some request =>
      exact ((prefix_addRequest request l.service.registry).sublist.map _).subset h
  | cycleEnds place =>
    left
    rcases l.cycleEnds_cases place with ⟨c, -, -, hservice, -⟩ | heq
    · rw [HasFilter, hservice, Cycle.registry_conclude, Registry.map_id_merge]
      exact h
    · rwa [heq]
  | switches faults url enabled =>
    left
    have hids : (l.step (.switches faults url enabled)).service.registry.filters.map (·.id) =
        l.service.registry.filters.map (·.id) :=
      Registry.map_id_setEnabled (l.service.store.keeps_load faults) _ url enabled
    rwa [HasFilter, hids]
  | downloadStarts place faults =>
    left
    rwa [HasFilter, (l.downloadStarts_frame place faults).1]
  | persists place ticket faults now =>
    left
    rwa [HasFilter, (l.persists_frame place ticket faults now).1]
  | removeProceeds place faults =>
    left
    rwa [HasFilter, (l.removeProceeds_frame place faults).1]
  | cycleBegins | downloadEnds | addBegins | assignsId | raisesIdFloor | setsUserRules
  | fileVanishes => exact .inl h

/-- A removal waits until it deletes its file. -/
theorem deleting_step {f : Filter} (h : .deleting f ∈ l.removals) (e : ServiceEvent) :
    .deleting f ∈ (l.step e).removals ∨ l.Deletes f.id e := by
  cases e with
  | removeProceeds place faults =>
    obtain ⟨i, hi⟩ := List.getElem?_of_mem h
    by_cases hplace : place = i
    · subst hplace
      exact .inr ⟨place, faults, f, rfl, hi, rfl⟩
    · left
      simp only [step]
      split
      · refine List.mem_of_getElem? (i := i) ?_
        rw [List.getElem?_set_ne hplace, hi]
      · exact h
  | removeBegins url => exact .inl (List.mem_append_left _ h)
  | cycleEnds place =>
    left
    rcases l.cycleEnds_cases place with ⟨_, _, _, _, _, _, _, hremovals⟩ | heq
    · rwa [hremovals]
    · rwa [heq]
  | downloadStarts place faults => exact .inl ((l.downloadStarts_frame place faults).2.2 ▸ h)
  | persists place ticket faults now =>
    exact .inl ((l.persists_frame place ticket faults now).2.2 ▸ h)
  | addProceeds place => exact .inl ((l.addProceeds_frame place).2.2 ▸ h)
  | cycleBegins | downloadEnds | addBegins | switches | loadsAll | deduplicates | assignsId
  | raisesIdFloor | setsUserRules | fileVanishes => exact .inl h

theorem Owns.step (h : l.Owns id) (he : e.isOfStartup = false) :
    (l.step e).Owns id ∨ l.Deletes id e := by
  rcases h with hlisted | ⟨f, hf, rfl⟩
  · exact .inl (hlisted.step he)
  · rcases deleting_step hf e with hwaits | hdeletes
    · exact .inl (.inr ⟨f, hwaits, rfl⟩)
    · exact .inr hdeletes

/-- An id that is not owned any more was given up by a deletion. -/
theorem Owns.exists_deletes (h : l.Owns id) (hevents : ∀ e ∈ events, e.isOfStartup = false)
    (hlast : ¬ (l.run events).Owns id) :
    ∃ first e rest, events = first ++ e :: rest ∧ (l.run first).Deletes id e := by
  induction events generalizing l with
  | nil => exact absurd h hlast
  | cons e rest ih =>
    obtain ⟨he, hrest⟩ := List.forall_mem_cons.mp hevents
    rcases h.step he with howns | hdeletes
    · obtain ⟨first, e', rest', rfl, hdeletes⟩ := ih howns hrest hlast
      exact ⟨e :: first, e', rest', rfl, hdeletes⟩
    · exact ⟨[], e, rest, rfl, hdeletes⟩

def WasCopied (l : LiveService) (events : List ServiceEvent) (id : FilterId) : Prop :=
  ∃ before now force, before ++ [.cycleBegins now force] <+: events ∧ (l.run before).HasFilter id

/-- The working copies of the cycles under way are of filters that were listed. -/
theorem wasCopied_of_copies (hidle : l.cycles = []) (events : List ServiceEvent) :
    ∀ c ∈ (l.run events).cycles, ∀ g ∈ c.copies, l.WasCopied events g.id := by
  induction events using List.reverseRecOn with
  | nil =>
    intro c hc
    rw [run, List.foldl_nil, hidle] at hc
    cases hc
  | append_singleton events e ih =>
    have hold : ∀ c ∈ (l.run events).cycles, ∀ g ∈ c.copies, l.WasCopied (events ++ [e]) g.id := by
      intro c hc g hg
      obtain ⟨before, now, force, hprefix, hlisted⟩ := ih c hc g hg
      exact ⟨before, now, force, hprefix.trans (List.prefix_append _ _), hlisted⟩
    rw [run_append]
    refine forall_copies_step (P := fun id _ => l.WasCopied (events ++ [e]) id) hold ?_
    rintro now force rfl g hg
    obtain ⟨f, hf, -, hid, -⟩ := mem_copies_begin hg
    exact ⟨events, now, force, List.prefix_rfl, List.mem_map.mpr ⟨f, hf, hid⟩⟩

/-- A cycle has begun while a filter with the id was listed, then a removal has deleted the file,
and then a cycle has saved a working copy with the id, when no such filter was listed. -/
def LeftBehind (l : LiveService) (events : List ServiceEvent) (id : FilterId) : Prop :=
  ∃ before now force between deletion middle save rest,
    events = before ++ .cycleBegins now force :: between ++ deletion :: middle ++ save :: rest ∧
    (l.run before).HasFilter id ∧
    (l.run (before ++ .cycleBegins now force :: between)).Deletes id deletion ∧
    ¬ (l.run (before ++ .cycleBegins now force :: between ++ deletion :: middle)).Owns id ∧
    (l.run (before ++ .cycleBegins now force :: between ++ deletion :: middle)).Saves id save

theorem LeftBehind.append (h : l.LeftBehind events id) (more : List ServiceEvent) :
    l.LeftBehind (events ++ more) id := by
  obtain ⟨before, now, force, between, deletion, middle, save, rest, rfl, hkept⟩ := h
  exact ⟨before, now, force, between, deletion, middle, save, rest ++ more, by simp, hkept⟩

/-- A save for an id that nobody owns comes after a deletion. -/
theorem leftBehind_of_saves (hidle : l.cycles = []) (hevents : ∀ e ∈ events, e.isOfStartup = false)
    (hsaves : (l.run events).Saves id e) (howns : ¬ (l.run events).Owns id) :
    l.LeftBehind (events ++ [e]) id := by
  have hcopied : l.WasCopied events id := by
    obtain ⟨place, ticket, faults, now, c, f, -, hc, hf, rfl, -⟩ := hsaves
    exact wasCopied_of_copies hidle events c (List.mem_of_getElem? hc) f
      (Cycle.mem_copies_of_active hf)
  obtain ⟨before, now, force, ⟨later, rfl⟩, hlists⟩ := hcopied
  have hlater : ∀ e ∈ later, e.isOfStartup = false :=
    fun e he => hevents e (List.mem_append_right _ he)
  have hbegun : (l.run (before ++ [.cycleBegins now force])).HasFilter id := by
    rw [run_append]
    exact hlists
  rw [run_append] at howns
  obtain ⟨between, deletion, middle, rfl, hdeletes⟩ := Owns.exists_deletes (.inl hbegun) hlater howns
  rw [← run_append] at howns hdeletes
  have hbetween : before ++ .cycleBegins now force :: between =
      before ++ [.cycleBegins now force] ++ between := by simp
  refine ⟨before, now, force, between, deletion, middle, e, [], by simp, hlists, ?_, ?_, ?_⟩ <;>
    rw [hbetween]
  · exact hdeletes
  · rwa [List.append_assoc]
  · rwa [List.append_assoc]

theorem owns_of_run (hidle : l.cycles = []) (hstart : ∀ id, l.service.store.HasFile id → l.Owns id)
    (hevents : ∀ e ∈ events, e.isOfStartup = false)
    (hremoves : ∀ place faults, .removeProceeds place faults ∈ events → faults .remove = none) :
    ∀ id, (l.run events).service.store.HasFile id →
      (l.run events).Owns id ∨ l.LeftBehind events id := by
  induction events using List.reverseRecOn with
  | nil => exact fun id hfile => .inl (hstart id hfile)
  | append_singleton events e ih =>
    intro id hfile
    have hbefore : ∀ e ∈ events, e.isOfStartup = false :=
      fun e he => hevents e (List.mem_append_left _ he)
    have he : e.isOfStartup = false := hevents e (by simp)
    have hearlier := ih hbefore fun place faults hmem =>
      hremoves place faults (List.mem_append_left _ hmem)
    have hlast : ∀ place faults, e = .removeProceeds place faults → faults .remove = none :=
      fun place faults heq => hremoves place faults (by simp [heq])
    rw [run_append] at hfile ⊢
    have hkept : (l.run events).Owns id → ((l.run events).step e).Owns id := by
      intro howns
      rcases howns.step he with hstill | hdeletes
      · exact hstill
      · exact absurd hfile (hdeletes.not_hasFile hlast)
    rcases hasFile_step hfile with hold | hsaves
    · rcases hearlier id hold with howns | hleft
      · exact .inl (hkept howns)
      · exact .inr (hleft.append [e])
    · by_cases howns : (l.run events).Owns id
      · exact .inl (hkept howns)
      · exact .inr (leftBehind_of_saves hidle hbefore hsaves howns)

/-- Start at rest with no file but those of listed filters, and let cycles, requests and switches
come between one another in any way. As long as the device lets removed files be deleted, the files
at rest are those of listed filters and those that cycles have left behind. -/
theorem listed_or_leftBehind_of_run (hrest : l.isAtRest = true)
    (hstart : ∀ id, l.service.store.HasFile id → l.HasFilter id)
    (hevents : ∀ e ∈ events, e.isOfStartup = false)
    (hremoves : ∀ place faults, .removeProceeds place faults ∈ events → faults .remove = none) :
    (l.run events).isAtRest = true → ∀ id, (l.run events).service.store.HasFile id →
      (l.run events).HasFilter id ∨ l.LeftBehind events id := by
  intro hlast id hfile
  simp only [isAtRest, Bool.and_eq_true, List.all_eq_true] at hrest hlast
  have howns := owns_of_run (isIdle_iff.mp hrest.1.1) (fun id hid => .inl (hstart id hid)) hevents
    hremoves id hfile
  rcases howns with (hlists | ⟨f, hf, -⟩) | hleft
  · exact .inl hlists
  · cases hlast.2 _ hf
  · exact .inr hleft

def oneListed : LiveService :=
  { service :=
      { registry := { filters := [{ id := 1, url := "http://a", enabled := true }], nextId := 2 }
        store := { path := "cache" } } }

/-- The filter is removed while a cycle downloads its list. -/
def savedAfterRemoval : List ServiceEvent :=
  [.cycleBegins ⟨0⟩ true, .downloadStarts 0 Faults.none, .removeBegins "http://a",
    .removeProceeds 0 Faults.none, .downloadEnds 0 0 (.plainText "x"),
    .persists 0 0 Faults.none ⟨5⟩, .cycleEnds 0]

theorem listed_oneListed (id : FilterId) (h : oneListed.service.store.HasFile id) :
    oneListed.HasFilter id := by
  obtain ⟨content, t, hfile⟩ := h
  cases hfile

theorem hasFile_savedAfterRemoval :
    (oneListed.run savedAfterRemoval).service.store.HasFile 1 :=
  ⟨bytesOf "x", ⟨5⟩, rfl⟩

/-- Nothing fails, one cycle is under way at a time, and the file stays without a filter. -/
theorem not_listed_of_savedAfterRemoval :
    oneListed.isAtRest = true ∧
      (∀ id, oneListed.service.store.HasFile id → oneListed.HasFilter id) ∧
      oneListed.OneAtATime savedAfterRemoval ∧
      (oneListed.run savedAfterRemoval).isAtRest = true ∧
      ¬ ∀ id, (oneListed.run savedAfterRemoval).service.store.HasFile id →
        (oneListed.run savedAfterRemoval).HasFilter id := by
  refine ⟨rfl, listed_oneListed, by decide +kernel, by decide +kernel, fun hall => ?_⟩
  have hnone : (oneListed.run savedAfterRemoval).service.registry.filters.map (·.id) = [] := by
    decide +kernel
  have hlists := hall 1 hasFile_savedAfterRemoval
  rw [HasFilter, hnone] at hlists
  cases hlists

theorem leftBehind_of_savedAfterRemoval :
    oneListed.isAtRest = true ∧
      (∀ id, oneListed.service.store.HasFile id → oneListed.HasFilter id) ∧
      (oneListed.run savedAfterRemoval).isAtRest = true ∧
      (oneListed.run savedAfterRemoval).service.store.HasFile 1 ∧
      oneListed.LeftBehind savedAfterRemoval 1 := by
  have hlast : (oneListed.run savedAfterRemoval).isAtRest = true := by decide +kernel
  have hevents : ∀ e ∈ savedAfterRemoval, e.isOfStartup = false := by simp [savedAfterRemoval,
    ServiceEvent.isOfStartup]
  have hremoves : ∀ place faults, .removeProceeds place faults ∈ savedAfterRemoval →
      faults .remove = none := by
    intro place faults hmem
    obtain ⟨-, rfl⟩ : place = 0 ∧ faults = Faults.none := by simpa [savedAfterRemoval] using hmem
    rfl
  refine ⟨rfl, listed_oneListed, hlast, hasFile_savedAfterRemoval, ?_⟩
  rcases listed_or_leftBehind_of_run rfl listed_oneListed hevents hremoves hlast 1
    hasFile_savedAfterRemoval with hlists | hleft
  · have hnone : (oneListed.run savedAfterRemoval).service.registry.filters.map (·.id) = [] := by
      decide +kernel
    rw [HasFilter, hnone] at hlists
    cases hlists
  · exact hleft

end LiveService

end FilterLists
