import FilterLists.Proofs.Refresh.Conclusion
import FilterLists.Proofs.Refresh.Copies
import FilterLists.Proofs.Refresh.Step
import FilterLists.Proofs.Session.Acceptance

/-!
The names that a daemon writes to the configuration file at its shutdown. A name in the daemon is
the one that it started with or the title of a list that it has fetched for that subscription,
whatever happens to the files meanwhile. So an entry of the file that gets another name at the
shutdown gets a title that the daemon has fetched, or it gets back the name from the startup.
-/
namespace FilterLists

open Session

namespace Fetch
variable {reply : Reply} {f g : Filter} {changed : Bool}

/-- A download keeps the name, or brings a content whose title is the new one. -/
theorem apply_name (h : Fetch.apply reply f = .ok (g, changed)) :
    g.name = f.name ∨ changed = true ∧ ∃ content, g.content = some content ∧
      (Content.Summary.ofBytes content).title = some g.name := by
  obtain ⟨body, hbody⟩ := apply_cases h
  unfold Filter.applyFetched at hbody
  split at hbody
  · cases hbody
    exact .inl rfl
  · cases hbody
    cases htitle : (Content.Summary.ofBytes body).title with
    | none => exact .inl rfl
    | some title => exact .inr ⟨rfl, body, rfl, htitle⟩

end Fetch

theorem Registry.takeOver_name (fresh : Refreshed) (live : Filter) :
    (takeOver fresh live).name = live.name ∨ (takeOver fresh live).name = fresh.filter.name := by
  unfold takeOver
  split
  · exact .inr rfl
  · exact .inl rfl

namespace LiveService
variable {l : LiveService} {known : FilterId → String → String → Prop} {e : ServiceEvent}

/-- The names of the filters and of their working copies are known ones. -/
structure Knows (l : LiveService) (known : FilterId → String → String → Prop) : Prop where
  listed : ∀ f ∈ l.service.registry.filters, known f.id f.url f.name
  copied : ∀ c ∈ l.cycles, ∀ f ∈ c.copies, known f.id f.url f.name

/-- A working copy gets a new content, and the title in it for its name. -/
def Learns (l : LiveService) (e : ServiceEvent) (id : FilterId) (url title : String) : Prop :=
  ∃ place ticket reply c f g content, e = .downloadEnds place ticket reply ∧
    l.cycles[place]? = some c ∧ .fetching ticket f ∈ c.active ∧ f.id = id ∧ f.url = url ∧
    Fetch.apply reply f = .ok (g, true) ∧ g.content = some content ∧
    (Content.Summary.ofBytes content).title = some title

theorem Knows.listed_step (h : l.Knows known) (hcycle : e.isRefresh = true) :
    ∀ f ∈ (l.step e).service.registry.filters, known f.id f.url f.name := by
  cases e with
  | cycleBegins | downloadEnds => exact h.listed
  | downloadStarts place faults =>
    rw [(l.downloadStarts_frame place faults).1]
    exact h.listed
  | persists place ticket faults now =>
    rw [(l.persists_frame place ticket faults now).1]
    exact h.listed
  | cycleEnds place =>
    rcases l.cycleEnds_cases place with ⟨c, hc, -, hservice, -⟩ | heq
    · rw [hservice, Cycle.registry_conclude]
      refine Registry.forall_mergeFrom_of_same 0 h.listed (fun fresh hfresh live hsame hlive => ?_)
      obtain ⟨hid, hurl⟩ : live.id = fresh.filter.id ∧ live.url = fresh.filter.url := by
        simpa [Registry.sameSubscription] using hsame
      obtain ⟨hid', hurl', -⟩ := Registry.takeOver_subscription fresh live
      rcases Registry.takeOver_name fresh live with hname | hname
      · rw [hid', hurl', hname]
        exact hlive
      · rw [hid', hurl', hname, hid, hurl]
        exact h.copied c (List.mem_of_getElem? hc) _ (Cycle.mem_copies_of_results hfresh)
    · rw [heq]
      exact h.listed
  | _ => cases hcycle

theorem Knows.copied_step (h : l.Knows known)
    (hlearns : ∀ id url title, l.Learns e id url title → known id url title) :
    ∀ d ∈ (l.step e).cycles, ∀ f ∈ d.copies, known f.id f.url f.name := by
  intro d hd f hf
  rcases mem_cycles_step hd with hold | ⟨now, force, -, rfl⟩ |
    ⟨place, faults, c, g, -, hc, hlaunch⟩ | ⟨place, ticket, reply, c, rfl, hc, rfl⟩ |
    ⟨place, ticket, faults, now, c, -, hc, rfl⟩
  · exact h.copied d hold f hf
  · have hwaiting : f ∈ Refresh.candidates l.service l.policy now force := by
      simpa [Cycle.begin, Cycle.copies] using hf
    rw [Refresh.candidates_eq] at hwaiting
    obtain ⟨g, hg, rfl⟩ := List.mem_map.mp hwaiting
    exact h.listed g (List.mem_filter.mp hg).1
  · obtain ⟨e, he, hid, hurl, hname⟩ := Cycle.mem_copies_launch hlaunch hf
    rw [hid, hurl, hname]
    exact h.copied c (List.mem_of_getElem? hc) e he
  · rcases Cycle.mem_copies_receive hf with hold | ⟨g, changed, hg, happly⟩
    · exact h.copied c (List.mem_of_getElem? hc) f hold
    · obtain ⟨hid, hurl⟩ := Fetch.apply_subscription happly
      rw [hid, hurl]
      rcases Fetch.apply_name happly with hname | ⟨rfl, content, hcontent, htitle⟩
      · rw [hname]
        exact h.copied c (List.mem_of_getElem? hc) g (Cycle.mem_copies_of_active hg)
      · exact hlearns _ _ _
          ⟨place, ticket, reply, c, g, f, content, rfl, hc, hg, rfl, rfl, happly, hcontent, htitle⟩
  · obtain ⟨e, he, hid, hurl, hname⟩ := Cycle.mem_copies_persist hf
    rw [hid, hurl, hname]
    exact h.copied c (List.mem_of_getElem? hc) e he

end LiveService

namespace Daemon
variable {l : LiveService} {known : FilterId → String → String → Prop}

theorem step_knows (h : l.Knows known) {e : DaemonEvent}
    (hlearns : ∀ e' ofCycle, e = .refreshes e' ofCycle → ∀ id url title,
      l.Learns e' id url title → known id url title) : (step l e).Knows known := by
  cases e with
  | refreshes e ofCycle =>
    exact ⟨h.listed_step ofCycle, h.copied_step (hlearns e ofCycle rfl)⟩
  | cacheChanges place => exact ⟨h.listed, h.copied⟩

/-- The daemon has fetched a list with a title for a subscription. -/
def Learned (l : LiveService) (events : List DaemonEvent) (id : FilterId) (url title : String) :
    Prop :=
  ∃ done e ofCycle rest, events = done ++ .refreshes e ofCycle :: rest ∧
    (run l done).Learns e id url title

theorem run_knows {events : List DaemonEvent} (h : l.Knows known)
    (hlearned : ∀ id url title, Learned l events id url title → known id url title) :
    (run l events).Knows known := by
  induction events generalizing l with
  | nil => exact h
  | cons e rest ih =>
    refine ih (step_knows h (fun e' ofCycle he id url title hlearns => ?_))
      (fun id url title hlater => ?_)
    · exact hlearned id url title ⟨[], e', ofCycle, rest, by rw [he]; rfl, hlearns⟩
    · obtain ⟨done, e', ofCycle, more, hrest, hlearns⟩ := hlater
      exact hlearned id url title ⟨e :: done, e', ofCycle, more, by rw [hrest]; rfl, hlearns⟩

/-- A name in a daemon is one that it started with, or a title that it has fetched. -/
theorem name_of_run (hidle : l.cycles = []) (events : List DaemonEvent) :
    ∀ f ∈ (run l events).service.registry.filters,
      (∃ g ∈ l.service.registry.filters, g.id = f.id ∧ g.url = f.url ∧ g.name = f.name) ∨
        Learned l events f.id f.url f.name := by
  have hstart : l.Knows (fun id url name =>
      (∃ g ∈ l.service.registry.filters, g.id = id ∧ g.url = url ∧ g.name = name) ∨
        Learned l events id url name) := by
    refine ⟨fun f hf => .inl ⟨f, hf, rfl, rfl, rfl⟩, ?_⟩
    rw [hidle]
    exact fun c hc => absurd hc List.not_mem_nil
  exact (run_knows hstart (fun _ _ _ hlearned => .inr hlearned)).listed

end Daemon

end FilterLists
