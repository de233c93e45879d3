import FilterLists.Proofs.Session.Edit

/-!
The list as a user knows it: URLs with names and marks, no ids and no contents. The commands that
edit it are described on such lists alone, and the service does what they say.
-/
namespace FilterLists

structure ListEntry where
  url : String
  name : String
  enabled : Bool
deriving DecidableEq, Repr

def Filter.entry (f : Filter) : ListEntry :=
  ⟨f.url, f.name, f.enabled⟩

namespace ListEntry

/-- Keeps the first entry with every URL. -/
def distinct : List ListEntry → List ListEntry
  | [] => []
  | e :: rest => e :: (distinct rest).filter (fun other => other.url ≠ e.url)

def lists (entries : List ListEntry) (url : String) : Bool :=
  entries.any (fun e => e.url = url)

def mark (entries : List ListEntry) (url : String) (enabled : Bool) : List ListEntry :=
  entries.map (fun e => if e.url = url then { e with enabled } else e)

def change (entries : List ListEntry) (url : String) (changed : List ListEntry) :
    Except Error (List ListEntry) :=
  if lists entries url then .ok changed else .error (.unknownFilter url)

/-- What an editing command makes of a list without repeated URLs. -/
def edit (entries : List ListEntry) : Command → Except Error (List ListEntry)
  | .add url name enabled =>
    match checkSubscription url name with
    | .error e => .error e
    | .ok () =>
      if lists entries url then .error (.duplicateFilter url)
      else .ok (entries ++ [⟨url, name, enabled⟩])
  | .remove url => change entries url (entries.filter (fun e => e.url ≠ url))
  | .enable url => change entries url (mark entries url true)
  | .disable url => change entries url (mark entries url false)
  | .list | .run _ | .refresh _ => .ok entries

/-- A command on a list. The others leave it alone, and those that edit it first drop repeated URLs.
-/
def apply (entries : List ListEntry) (command : Command) : Except Error (List ListEntry) :=
  if Session.edits command then edit (distinct entries) command else .ok entries

def after (entries : List ListEntry) (command : Command) : List ListEntry :=
  match apply entries command with
  | .ok edited => edited
  | .error _ => entries

theorem map_entry_firstByUrl (seen : List String) (filters : List Filter) :
    (Registry.firstByUrl seen filters).map Filter.entry =
      (distinct (filters.map Filter.entry)).filter (fun e => e.url ∉ seen) := by
  induction filters generalizing seen with
  | nil => rfl
  | cons f rest ih =>
    have hurl : f.entry.url = f.url := rfl
    rw [List.map_cons, Registry.firstByUrl, distinct, List.filter_cons, List.filter_filter, hurl]
    split
    · next hseen =>
      rw [if_neg (by simpa using hseen), ih]
      refine List.filter_congr (fun e _ => ?_)
      by_cases he : e.url = f.url
      · simp [he, hseen]
      · simp [he]
    · next hnew =>
      rw [if_pos (by simpa using hnew), List.map_cons, ih]
      refine congrArg _ (List.filter_congr (fun e _ => ?_))
      by_cases he : e.url = f.url <;> simp [he]

/-- Deduplication keeps what a list without repeated URLs has of it. -/
theorem map_entry_ofConfigured (now : Instant) (filters : List Filter) (rules : List String) :
    (Registry.ofConfigured now filters rules).filters.map Filter.entry =
      distinct (filters.map Filter.entry) := by
  have hkept := map_entry_firstByUrl [] filters
  simp only [List.not_mem_nil, not_false_eq_true, decide_true, List.filter_true] at hkept
  exact hkept

theorem lists_map_entry (r : Registry) (url : String) :
    lists (r.filters.map Filter.entry) url = r.contains url := by
  rw [lists, List.any_map]
  rfl

theorem url_ne_of_notMem {filters : List Filter} {url : String}
    (h : url ∉ filters.map (·.url)) : ∀ e ∈ filters.map Filter.entry, e.url ≠ url := by
  rintro e he rfl
  obtain ⟨f, hf, rfl⟩ := List.mem_map.mp he
  exact h (List.mem_map_of_mem hf)

theorem map_entry_persisted (filters : List Filter) :
    (filters.map Filter.persisted).map Filter.entry = filters.map Filter.entry := by
  rw [List.map_map]
  rfl

theorem map_entry_assignMissing (nextId : FilterId) (filters : List Filter) :
    (Registry.assignMissing nextId filters).1.map Filter.entry = filters.map Filter.entry := by
  induction filters generalizing nextId with
  | nil => rfl
  | cons f rest ih =>
    unfold Registry.assignMissing
    split
    · simp [ih, Filter.entry]
    · simp [ih]

theorem map_entry_loadAll {load : Loader} (hload : Registry.Keeps load) (r : Registry) :
    (r.loadAll load).filters.map Filter.entry = r.filters.map Filter.entry := by
  have hkept := congrArg (List.map Filter.entry) (Registry.map_persisted_loadAll hload r)
  rwa [map_entry_persisted, map_entry_assignMissing, map_entry_persisted] at hkept

theorem map_entry_eraseP {filters : List Filter} (hurls : (filters.map (·.url)).Nodup)
    (url : String) : (filters.eraseP (fun f => f.url = url)).map Filter.entry =
      (filters.map Filter.entry).filter (fun e => e.url ≠ url) := by
  induction filters with
  | nil => rfl
  | cons f rest ih =>
    obtain ⟨hfirst, hrest⟩ := List.nodup_cons.mp hurls
    have hurl : f.entry.url = f.url := rfl
    rw [List.map_cons, List.filter_cons, hurl]
    by_cases hf : f.url = url
    · have hothers : ∀ e ∈ rest.map Filter.entry, e.url ≠ url := hf ▸ url_ne_of_notMem hfirst
      rw [List.eraseP_cons_of_pos (by simpa using hf), if_neg (by simp [hf]), eq_comm,
        List.filter_eq_self]
      exact fun e he => decide_eq_true (hothers e he)
    · rw [List.eraseP_cons_of_neg (by simpa using hf), if_pos (by simpa using hf), List.map_cons,
        ih hrest]

theorem map_entry_switch {filters : List Filter} (hurls : (filters.map (·.url)).Nodup)
    {load : Loader} (hload : Registry.Keeps load) (url : String) (enabled : Bool) :
    (Registry.modifyFirst (fun f => f.url = url) (Registry.switch load enabled) filters).map
      Filter.entry = mark (filters.map Filter.entry) url enabled := by
  have hapart : filters.Pairwise
      (fun f g => ¬ (decide (f.url = url) = true ∧ decide (g.url = url) = true)) := by
    refine (List.pairwise_map.mp hurls).imp (fun hne ⟨hf, hg⟩ => hne ?_)
    rw [of_decide_eq_true hf, of_decide_eq_true hg]
  rw [Registry.modifyFirst_eq_map hapart, mark, List.map_map, List.map_map]
  refine List.map_congr_left (fun f _ => ?_)
  have hswitched : (Registry.switch load enabled f).entry =
      { f.entry with enabled } :=
    congrArg Filter.entry (Registry.persisted_switch hload enabled f)
  by_cases hf : f.url = url
  · have hurl : f.entry.url = url := hf
    simpa [hf, hurl] using hswitched
  · have hurl : f.entry.url ≠ url := hf
    simp [hf, hurl]

end ListEntry

namespace Session

open ListEntry

/-- An answer of the service is the described one, and so is the list after it. -/
structure Answers (answer : Service × Except Error Unit)
    (described : Except Error (List ListEntry)) : Prop where
  result : answer.2 = described.map (fun _ => ())
  listed : ∀ entries, described = .ok entries →
    answer.1.registry.filters.map Filter.entry = entries

theorem answers_ok {changed : Service} {entries : List ListEntry}
    (h : changed.registry.filters.map Filter.entry = entries) :
    Answers (changed, .ok ()) (.ok entries) :=
  ⟨rfl, fun _ hsame => h.trans (Except.ok.inj hsame)⟩

theorem answers_error (service : Service) (e : Error) :
    Answers (service, .error e) (.error e) :=
  ⟨rfl, fun _ hsame => by cases hsame⟩

theorem Answers.eq_error {service : Service} {e : Error}
    {described : Except Error (List ListEntry)} (h : Answers (service, .error e) described) :
    described = .error e := by
  have hresult := h.result
  cases described with
  | error other => rw [Except.error.inj hresult]
  | ok entries => cases hresult

theorem Answers.eq_ok {changed : Service} {described : Except Error (List ListEntry)}
    (h : Answers (changed, .ok ()) described) :
    described = .ok (changed.registry.filters.map Filter.entry) := by
  have hresult := h.result
  cases described with
  | error e => cases hresult
  | ok entries => rw [h.listed entries rfl]

variable {service : Service}

theorem switchFilter_answers (hurls : (service.registry.filters.map (·.url)).Nodup) (url : String)
    (enabled : Bool) :
    let entries := service.registry.filters.map Filter.entry
    Answers (service.switchFilter Faults.noneFor url enabled)
      (change entries url (mark entries url enabled)) := by
  intro entries
  have hload : Registry.Keeps (service.loader Faults.noneFor) :=
    service.store.keeps_load (fun _ => Faults.none)
  rw [change, lists_map_entry, switchFilter_eq]
  cases service.registry.contains url with
  | true => exact answers_ok (map_entry_switch hurls hload url enabled)
  | false => exact answers_error service _

/-- The service edits its list as described. -/
theorem edited_answers (hurls : (service.registry.filters.map (·.url)).Nodup) (command : Command) :
    Answers (edited service command)
      (edit (service.registry.filters.map Filter.entry) command) := by
  cases command with
  | add url name enabled =>
    rw [edited_add, edit, lists_map_entry]
    cases checkSubscription url name with
    | error e => exact answers_error service e
    | ok valid =>
      cases service.registry.contains url with
      | true => exact answers_error service _
      | false => exact answers_ok (by simp [Filter.entry])
  | remove url =>
    rw [edited_remove, edit, change, lists_map_entry]
    cases hget : service.registry.get? url with
    | none =>
      have hlisted : service.registry.contains url = false := by
        simpa [Registry.contains, Registry.get?] using hget
      rw [hlisted]
      exact answers_error service _
    | some f =>
      rw [Registry.get?] at hget
      have hurl := List.find?_some hget
      have hlisted : service.registry.contains url = true :=
        List.any_eq_true.mpr ⟨f, List.mem_of_find?_eq_some hget, hurl⟩
      rw [hlisted]
      exact answers_ok (map_entry_eraseP hurls url)
  | enable url => exact switchFilter_answers hurls url true
  | disable url => exact switchFilter_answers hurls url false
  | run | refresh | list => exact answers_ok rfl

end Session

end FilterLists
