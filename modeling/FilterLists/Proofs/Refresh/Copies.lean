import FilterLists.Proofs.Refresh.Download
import FilterLists.Proofs.Refresh.Persist

/-! The working copies of a cycle. No filter has two of them, and each goes its own way: it waits,
is downloaded, and is written or dropped. -/
namespace FilterLists

/-- An element whose key no other has can be taken out by its key. -/
theorem perm_cons_filter_of_nodup {α β : Type} [DecidableEq β] {key : α → β} {l : List α}
    (hkeys : (l.map key).Nodup) {a : α} (h : a ∈ l) :
    l.Perm (a :: l.filter (fun other => key other ≠ key a)) := by
  induction l with
  | nil => cases h
  | cons first rest ih =>
    obtain ⟨hfirst, hrest⟩ := List.nodup_cons.mp hkeys
    have hne : ∀ other ∈ rest, key other ≠ key first := fun other hother heq =>
      hfirst (List.mem_map.mpr ⟨other, hother, heq⟩)
    rcases List.mem_cons.mp h with rfl | hlater
    · rw [List.filter_cons_of_neg (by simp), List.filter_eq_self.mpr (by simpa using hne)]
    · rw [List.filter_cons_of_pos (by simpa using (hne a hlater).symm)]
      exact ((ih hrest hlater).cons first).trans (List.Perm.swap _ _ _)

namespace Refresh
variable {service : Service} {policy : RefreshPolicy} {now : Instant} {force : Bool}

def isDue (policy : RefreshPolicy) (now : Instant) (force : Bool) (f : Filter) : Bool :=
  !policy.paused && (f.enabled && (force || f.isStale now policy.interval))

theorem enabled_of_isDue {f : Filter} (h : isDue policy now force f = true) : f.enabled = true :=
  (Bool.and_eq_true_iff.mp (Bool.and_eq_true_iff.mp h).2).1

theorem candidates_eq (s : Service) (policy : RefreshPolicy) (now : Instant) (force : Bool) :
    candidates s policy now force =
      (s.registry.filters.filter (isDue policy now force)).map Filter.refreshCopy := by
  unfold candidates isDue
  cases policy.paused with
  | true => simp
  | false => rfl

theorem candidates_nodup (policy : RefreshPolicy) (now : Instant) (force : Bool)
    (hids : (service.registry.filters.map (·.id)).Nodup) :
    ((candidates service policy now force).map (·.id)).Nodup := by
  rw [candidates_eq, List.map_map]
  exact hids.sublist (List.filter_sublist.map _)

theorem notMem_candidates (hids : (service.registry.filters.map (·.id)).Nodup) {f : Filter}
    (hf : f ∈ service.registry.filters) (hdue : isDue policy now force f = false) :
    f.id ∉ (candidates service policy now force).map (·.id) := by
  rw [candidates_eq, List.map_map]
  intro hmem
  obtain ⟨g, hg, hid⟩ := List.mem_map.mp hmem
  obtain ⟨hg', hgdue⟩ := List.mem_filter.mp hg
  rw [List.inj_on_of_nodup_map hids hg' hf hid, hdue] at hgdue
  cases hgdue

theorem refreshCopy_mem_candidates {f : Filter} (hf : f ∈ service.registry.filters)
    (hdue : isDue policy now force f = true) :
    f.refreshCopy ∈ candidates service policy now force := by
  rw [candidates_eq]
  exact List.mem_map_of_mem (List.mem_filter.mpr ⟨hf, hdue⟩)

end Refresh

def Task.filter : Task → Filter
  | .fetching _ f => f
  | .fetched _ f _ => f

namespace Cycle
variable {c d : Cycle} {s : Store} {faults : Faults} {ticket : Nat} {reply : Reply}

/-- The filters of a cycle by their ids: those that wait, those under way and those done. -/
def ids (c : Cycle) : List FilterId :=
  c.waiting.map (·.id) ++ (c.active.map (·.filter.id) ++ c.results.map (·.filter.id))

/-- No two working copies are of one filter, and no two under way have the same ticket. -/
structure Distinct (c : Cycle) : Prop where
  ids : c.ids.Nodup
  tickets : (c.active.map Task.ticket).Nodup
  started : ∀ task ∈ c.active, task.ticket < c.started

theorem distinct_of_waiting {waiting : List Filter} (h : (waiting.map (·.id)).Nodup) :
    ({ waiting } : Cycle).Distinct :=
  ⟨by simpa [ids] using h, by simp, by simp⟩

theorem Distinct.notMem_results_of_waiting (h : c.Distinct) {f : Filter} (hf : f ∈ c.waiting) :
    f.id ∉ c.results.map (·.filter.id) := by
  obtain ⟨_, _, hapart⟩ := List.nodup_append.mp h.ids
  intro hresult
  exact hapart f.id (List.mem_map_of_mem hf) f.id (List.mem_append_right _ hresult) rfl

theorem Distinct.notMem_results_of_active (h : c.Distinct) {task : Task} (htask : task ∈ c.active) :
    task.filter.id ∉ c.results.map (·.filter.id) := by
  obtain ⟨_, hrest, _⟩ := List.nodup_append.mp h.ids
  obtain ⟨_, _, hapart⟩ := List.nodup_append.mp hrest
  intro hresult
  have hactive : task.filter.id ∈ c.active.map (·.filter.id) := List.mem_map.mpr ⟨task, htask, rfl⟩
  exact hapart task.filter.id hactive task.filter.id hresult rfl

theorem isDone_iff : c.isDone = true ↔ c.waiting = [] ∧ c.active = [] := by
  simp [isDone]

theorem Distinct.results (h : c.Distinct) : (c.results.map (·.filter.id)).Nodup :=
  (List.nodup_append.mp (List.nodup_append.mp h.ids).2.1).2.1

theorem launch?_cases {limit : Nat} {g : Filter} (h : c.launch? s faults limit = some (d, g)) :
    ∃ f rest, c.waiting = f :: rest ∧ g = Refresh.prepare s faults f ∧
      d = { c with
            waiting := rest
            active := c.active ++ [.fetching c.started g]
            started := c.started + 1 } := by
  unfold launch? at h
  cases hwaiting : c.waiting with
  | nil =>
    rw [hwaiting] at h
    cases h
  | cons f rest =>
    rw [hwaiting] at h
    simp only at h
    split_ifs at h
    cases h
    exact ⟨f, rest, rfl, rfl, rfl⟩

theorem fetching_of_launch {limit t : Nat} {e g : Filter}
    (h : c.launch? s faults limit = some (d, g)) (he : .fetching t e ∈ d.active) :
    .fetching t e ∈ c.active ∨ e = g := by
  obtain ⟨f, rest, _, rfl, rfl⟩ := launch?_cases h
  rcases List.mem_append.mp he with hold | hnew
  · exact .inl hold
  · cases List.mem_singleton.mp hnew
    exact .inr rfl

theorem fetched_of_launch {limit t : Nat} {e g : Filter} {changed : Bool}
    (h : c.launch? s faults limit = some (d, g)) (he : .fetched t e changed ∈ d.active) :
    .fetched t e changed ∈ c.active := by
  obtain ⟨f, rest, _, rfl, rfl⟩ := launch?_cases h
  rcases List.mem_append.mp he with hold | hnew
  · exact hold
  · cases List.mem_singleton.mp hnew

theorem waiting_of_launch {limit : Nat} {e g : Filter}
    (h : c.launch? s faults limit = some (d, g)) (he : e ∈ d.waiting) : e ∈ c.waiting := by
  obtain ⟨f, rest, hwaiting, rfl, rfl⟩ := launch?_cases h
  rw [hwaiting]
  exact List.mem_cons_of_mem f he

theorem ids_launch {limit : Nat} {g : Filter} (h : c.launch? s faults limit = some (d, g)) :
    d.ids.Perm c.ids := by
  obtain ⟨f, rest, hwaiting, rfl, rfl⟩ := launch?_cases h
  have hid := (Refresh.prepare_subscription s faults f).1
  simp only [ids, hwaiting, List.map_append, List.map_cons, List.map_nil, Task.filter, hid]
  rw [List.append_assoc, List.singleton_append, List.cons_append, ← List.append_assoc,
    ← List.append_assoc]
  exact List.perm_middle

theorem Distinct.launch (hc : c.Distinct) {limit : Nat} {g : Filter}
    (h : c.launch? s faults limit = some (d, g)) : d.Distinct := by
  have hids := (ids_launch h).nodup_iff.mpr hc.ids
  obtain ⟨f, rest, _, rfl, rfl⟩ := launch?_cases h
  refine ⟨hids, ?_, ?_⟩
  · rw [List.map_append]
    refine List.nodup_append.mpr ⟨hc.tickets, by simp, ?_⟩
    intro t ht u hu
    obtain ⟨task, htask, rfl⟩ := List.mem_map.mp ht
    have hu' : u = c.started := by simpa [Task.ticket] using hu
    have hlt := hc.started task htask
    omega
  · intro task htask
    rcases List.mem_append.mp htask with hold | hnew
    · exact (hc.started task hold).trans (Nat.lt_succ_self _)
    · rw [List.mem_singleton.mp hnew]
      exact Nat.lt_succ_self _

/-- A task after the end of a download was there before, or is the one that was downloaded. -/
theorem mem_receive {task : Task} (h : task ∈ (c.receive ticket reply).active) :
    task ∈ c.active ∨ ∃ f g changed, .fetching ticket f ∈ c.active ∧
      Fetch.apply reply f = .ok (g, changed) ∧ task = .fetched ticket g changed := by
  obtain ⟨before, hbefore, hsome⟩ := List.mem_filterMap.mp h
  cases before with
  | fetching t f =>
    simp only at hsome
    split_ifs at hsome with hticket
    · subst hticket
      cases happly : Fetch.apply reply f with
      | error e => simp [happly] at hsome
      | ok result =>
        simp only [happly] at hsome
        cases hsome
        exact .inr ⟨f, result.1, result.2, hbefore, happly, rfl⟩
    · cases hsome
      exact .inl hbefore
  | fetched t f changed =>
    cases hsome
    exact .inl hbefore

theorem fetching_of_receive {t : Nat} {f : Filter}
    (h : .fetching t f ∈ (c.receive ticket reply).active) : .fetching t f ∈ c.active := by
  rcases mem_receive h with hold | ⟨_, _, _, _, _, hother⟩
  · exact hold
  · cases hother

theorem fetched_of_receive {t : Nat} {g : Filter} {changed : Bool}
    (h : .fetched t g changed ∈ (c.receive ticket reply).active) :
    .fetched t g changed ∈ c.active ∨
      ∃ f, .fetching ticket f ∈ c.active ∧ Fetch.apply reply f = .ok (g, changed) := by
  rcases mem_receive h with hold | ⟨f, _, _, hf, happly, heq⟩
  · exact .inl hold
  · cases heq
    exact .inr ⟨f, hf, happly⟩

/-- The end of a download drops a task or leaves it in its place. -/
theorem receive_sublist {β : Type} (k : Task → β)
    (hk : ∀ t f g changed, Fetch.apply reply f = .ok (g, changed) →
      k (.fetched t g changed) = k (.fetching t f)) :
    ((c.receive ticket reply).active.map k).Sublist (c.active.map k) := by
  simp only [receive]
  induction c.active with
  | nil => exact List.Sublist.slnil
  | cons task rest ih =>
    rw [List.filterMap_cons, List.map_cons]
    cases task with
    | fetched t f changed => exact ih.cons_cons _
    | fetching t f =>
      simp only
      by_cases hticket : t = ticket
      · rw [if_pos hticket]
        cases happly : Fetch.apply reply f with
        | error e => exact ih.cons _
        | ok result =>
          simp only
          rw [List.map_cons, hk t f result.1 result.2 happly]
          exact ih.cons_cons _
      · rw [if_neg hticket]
        exact ih.cons_cons _

theorem ids_receive : (c.receive ticket reply).ids.Sublist c.ids := by
  have hactive : ((c.receive ticket reply).active.map (·.filter.id)).Sublist
      (c.active.map (·.filter.id)) :=
    receive_sublist (fun task => task.filter.id)
      (fun t f g changed happly => (Fetch.apply_subscription happly).1)
  exact (List.Sublist.refl _).append (hactive.append (List.Sublist.refl _))

theorem Distinct.receive (hc : c.Distinct) (ticket : Nat) (reply : Reply) :
    (c.receive ticket reply).Distinct := by
  refine ⟨hc.ids.sublist ids_receive, ?_, ?_⟩
  · exact hc.tickets.sublist (receive_sublist Task.ticket (fun _ _ _ _ _ => rfl))
  · intro task htask
    rcases mem_receive htask with hold | ⟨f, g, changed, hf, _, rfl⟩
    · exact hc.started task hold
    · exact hc.started (.fetching ticket f) hf

/-- A filter leaves a cycle at the end of a download only if that failed. -/
theorem receive_of_mem {task : Task} (h : task ∈ c.active) (ticket : Nat) (reply : Reply) :
    task.filter.id ∈ (c.receive ticket reply).active.map (·.filter.id) ∨
      ∃ f e, task = .fetching ticket f ∧ Fetch.apply reply f = .error e := by
  cases task with
  | fetched t f changed =>
    exact .inl (List.mem_map.mpr ⟨_, List.mem_filterMap.mpr ⟨_, h, rfl⟩, rfl⟩)
  | fetching t f =>
    by_cases hticket : t = ticket
    · subst hticket
      cases happly : Fetch.apply reply f with
      | error e => exact .inr ⟨f, e, rfl, happly⟩
      | ok result =>
        obtain ⟨g, changed⟩ := result
        have hid : g.id = f.id := (Fetch.apply_subscription happly).1
        refine .inl (List.mem_map.mpr ⟨.fetched t g changed, ?_, hid⟩)
        exact List.mem_filterMap.mpr ⟨_, h, by simp [happly]⟩
    · exact .inl (List.mem_map.mpr ⟨_, List.mem_filterMap.mpr ⟨_, h, by simp [hticket]⟩, rfl⟩)

theorem mem_ids_receive {id : FilterId} (h : id ∈ c.ids) (ticket : Nat) (reply : Reply) :
    id ∈ (c.receive ticket reply).ids ∨
      ∃ f e, .fetching ticket f ∈ c.active ∧ f.id = id ∧ Fetch.apply reply f = .error e := by
  simp only [ids, List.mem_append] at h ⊢
  rcases h with hwaiting | hactive | hresults
  · exact .inl (.inl hwaiting)
  · obtain ⟨task, htask, rfl⟩ := List.mem_map.mp hactive
    rcases receive_of_mem htask ticket reply with hkept | ⟨f, e, rfl, happly⟩
    · exact .inl (.inr (.inl hkept))
    · exact .inr ⟨f, e, htask, rfl, happly⟩
  · exact .inl (.inr (.inr hresults))

theorem ticket_ne_of_nodup {first : Task} {rest : List Task}
    (h : ((first :: rest).map Task.ticket).Nodup) : ∀ other ∈ rest, other.ticket ≠ first.ticket :=
  fun other hother heq => (List.nodup_cons.mp h).1 (List.mem_map.mpr ⟨other, hother, heq⟩)

theorem filter_ticket_ne {first : Task} {rest : List Task}
    (h : ((first :: rest).map Task.ticket).Nodup) :
    rest.filter (fun other => other.ticket ≠ first.ticket) = rest :=
  List.filter_eq_self.mpr (by simpa using ticket_ne_of_nodup h)

theorem perm_cons_filter {tasks : List Task} (htickets : (tasks.map Task.ticket).Nodup)
    {task : Task} (h : task ∈ tasks) :
    tasks.Perm (task :: tasks.filter (fun other => other.ticket ≠ task.ticket)) :=
  perm_cons_filter_of_nodup htickets h

/-- A working copy that is written moves to the results, or is dropped if it has no outcome. -/
theorem ids_persist (hc : c.Distinct) {f : Filter} {changed : Bool} {outcome : Option Refreshed}
    (hf : .fetched ticket f changed ∈ c.active) (hid : ∀ fresh ∈ outcome, fresh.filter.id = f.id) :
    c.ids.Perm ((if outcome.isSome then [] else [f.id]) ++
      { c with
        active := c.active.filter (fun task => task.ticket ≠ ticket)
        results := c.results ++ outcome.toList : Cycle }.ids) := by
  have hperm := (perm_cons_filter hc.tickets hf).map (·.filter.id)
  simp only [Task.ticket, Task.filter, List.map_cons] at hperm
  have hactive := (hperm.append_right (c.results.map (·.filter.id))).append_left
    (c.waiting.map (·.id))
  refine hactive.trans ?_
  cases outcome with
  | none =>
    simp only [ids, Option.toList_none, List.append_nil]
    exact List.perm_middle
  | some fresh =>
    have hfresh : fresh.filter.id = f.id := hid fresh rfl
    simp only [ids, Option.toList_some, List.map_append, List.map_cons, List.map_nil, hfresh]
    refine List.Perm.append_left _ ?_
    rw [List.cons_append, ← List.append_assoc]
    exact (List.perm_append_singleton _ _).symm

/-- An id stays with the cycle, unless it is that of a copy without an outcome. -/
theorem mem_ids_persist (hc : c.Distinct) {f : Filter} {changed : Bool} {outcome : Option Refreshed}
    (hf : .fetched ticket f changed ∈ c.active) (hid : ∀ fresh ∈ outcome, fresh.filter.id = f.id)
    {id : FilterId} (h : id ∈ c.ids) (hkept : id = f.id → outcome.isSome = true) :
    id ∈ { c with
      active := c.active.filter (fun task => task.ticket ≠ ticket)
      results := c.results ++ outcome.toList : Cycle }.ids := by
  rcases List.mem_append.mp ((ids_persist hc hf hid).mem_iff.mp h) with hdropped | hstays
  · split_ifs at hdropped with hsome
    · cases hdropped
    · exact absurd (hkept (List.mem_singleton.mp hdropped)) hsome
  · exact hstays

theorem Distinct.persist (hc : c.Distinct) (s : Store) (faults : Faults) (now : Instant)
    (ticket : Nat) : (c.persist s faults now ticket).2.Distinct := by
  rcases c.persist_cases s faults now ticket with ⟨f, changed, hf, heq⟩ | heq
  · rw [heq]
    have hperm := ids_persist hc hf (Refresh.persist_outcome_id s faults now f changed)
    refine ⟨(List.nodup_append.mp (hperm.nodup_iff.mp hc.ids)).2.1, ?_, ?_⟩
    · exact hc.tickets.sublist (List.filter_sublist.map _)
    · exact fun task htask => hc.started task (List.mem_filter.mp htask).1
  · rw [heq]
    exact hc

/-- The working copies of a cycle and the results that they have become. -/
def copies (c : Cycle) : List Filter :=
  c.waiting ++ (c.active.map Task.filter ++ c.results.map Refreshed.filter)

theorem ids_eq_map (c : Cycle) : c.ids = c.copies.map (·.id) := by
  simp [ids, copies, Function.comp_def]

theorem mem_copies {f : Filter} :
    f ∈ c.copies ↔ f ∈ c.waiting ∨ (∃ task ∈ c.active, task.filter = f) ∨
      ∃ fresh ∈ c.results, fresh.filter = f := by
  simp only [copies, List.mem_append, List.mem_map]

theorem mem_copies_of_waiting {f : Filter} (h : f ∈ c.waiting) : f ∈ c.copies :=
  mem_copies.mpr (.inl h)

theorem mem_copies_of_active {task : Task} (h : task ∈ c.active) : task.filter ∈ c.copies :=
  mem_copies.mpr (.inr (.inl ⟨task, h, rfl⟩))

theorem mem_copies_of_results {fresh : Refreshed} (h : fresh ∈ c.results) :
    fresh.filter ∈ c.copies :=
  mem_copies.mpr (.inr (.inr ⟨fresh, h, rfl⟩))

section Copies

theorem mem_copies_launch {limit : Nat} {g : Filter}
    (hl : c.launch? s faults limit = some (d, g)) {f : Filter} (hf : f ∈ d.copies) :
    ∃ e ∈ c.copies, f.id = e.id ∧ f.url = e.url ∧ f.name = e.name := by
  obtain ⟨e, rest, hwaiting, rfl, rfl⟩ := launch?_cases hl
  rcases mem_copies.mp hf with hwait | ⟨task, htask, rfl⟩ | ⟨fresh, hresult, rfl⟩
  · refine ⟨f, mem_copies_of_waiting ?_, rfl, rfl, rfl⟩
    rw [hwaiting]
    exact List.mem_cons_of_mem e hwait
  · rcases List.mem_append.mp htask with hold | hnew
    · exact ⟨_, mem_copies_of_active hold, rfl, rfl, rfl⟩
    · rw [List.mem_singleton.mp hnew]
      obtain ⟨hid, hurl⟩ := Refresh.prepare_subscription s faults e
      exact ⟨e, mem_copies_of_waiting (by simp [hwaiting]), hid, hurl,
        Refresh.prepare_name s faults e⟩
  · exact ⟨_, mem_copies_of_results hresult, rfl, rfl, rfl⟩

/-- A working copy after the end of a download was there before, or has been downloaded. -/
theorem mem_copies_receive {f : Filter} (hf : f ∈ (c.receive ticket reply).copies) :
    f ∈ c.copies ∨ ∃ e changed, .fetching ticket e ∈ c.active ∧
      Fetch.apply reply e = .ok (f, changed) := by
  rcases mem_copies.mp hf with hwait | ⟨task, htask, rfl⟩ | ⟨fresh, hresult, rfl⟩
  · exact .inl (mem_copies_of_waiting hwait)
  · rcases mem_receive htask with hold | ⟨e, g, changed, he, happly, rfl⟩
    · exact .inl (mem_copies_of_active hold)
    · exact .inr ⟨e, changed, he, happly⟩
  · exact .inl (mem_copies_of_results hresult)

theorem mem_copies_persist {now : Instant} {f : Filter}
    (hf : f ∈ (c.persist s faults now ticket).2.copies) :
    ∃ e ∈ c.copies, f.id = e.id ∧ f.url = e.url ∧ f.name = e.name := by
  rcases c.persist_cases s faults now ticket with ⟨g, changed, hg, heq⟩ | heq
  · rw [heq] at hf
    rcases mem_copies.mp hf with hwait | ⟨task, htask, rfl⟩ | ⟨fresh, hresult, rfl⟩
    · exact ⟨f, mem_copies_of_waiting hwait, rfl, rfl, rfl⟩
    · exact ⟨_, mem_copies_of_active (List.mem_filter.mp htask).1, rfl, rfl, rfl⟩
    · rcases List.mem_append.mp hresult with hold | hnew
      · exact ⟨_, mem_copies_of_results hold, rfl, rfl, rfl⟩
      · obtain ⟨t, rfl⟩ := Refresh.persist_outcome (Option.mem_toList.mp hnew)
        exact ⟨g, mem_copies_of_active hg, rfl, rfl, rfl⟩
  · rw [heq] at hf
    exact ⟨f, hf, rfl, rfl, rfl⟩

variable {P : FilterId → String → Prop}

theorem forall_copies_launch {limit : Nat} {g : Filter} (h : ∀ f ∈ c.copies, P f.id f.url)
    (hl : c.launch? s faults limit = some (d, g)) : ∀ f ∈ d.copies, P f.id f.url := by
  intro f hf
  obtain ⟨e, he, hid, hurl, -⟩ := mem_copies_launch hl hf
  rw [hid, hurl]
  exact h e he

theorem forall_copies_receive (h : ∀ f ∈ c.copies, P f.id f.url) (ticket : Nat) (reply : Reply) :
    ∀ f ∈ (c.receive ticket reply).copies, P f.id f.url := by
  intro f hf
  rcases mem_copies_receive hf with hold | ⟨e, changed, he, happly⟩
  · exact h f hold
  · obtain ⟨hid, hurl⟩ := Fetch.apply_subscription happly
    rw [hid, hurl]
    exact h e (mem_copies_of_active he)

theorem forall_copies_persist (h : ∀ f ∈ c.copies, P f.id f.url) (s : Store) (faults : Faults)
    (now : Instant) (ticket : Nat) :
    ∀ f ∈ (c.persist s faults now ticket).2.copies, P f.id f.url := by
  intro f hf
  obtain ⟨e, he, hid, hurl, -⟩ := mem_copies_persist hf
  rw [hid, hurl]
  exact h e he

end Copies

theorem ids_persist_subset (c : Cycle) (s : Store) (faults : Faults) (now : Instant)
    (ticket : Nat) : (c.persist s faults now ticket).2.ids ⊆ c.ids := by
  have hcopies : ∀ f ∈ c.copies, f.id ∈ c.ids := fun f hf => by
    rw [ids_eq_map]
    exact List.mem_map_of_mem hf
  have hkept := forall_copies_persist (P := fun id _ => id ∈ c.ids) hcopies s faults now ticket
  intro id hid
  rw [ids_eq_map] at hid
  obtain ⟨f, hf, rfl⟩ := List.mem_map.mp hid
  exact hkept f hf

end Cycle

end FilterLists
