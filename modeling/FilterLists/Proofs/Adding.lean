import FilterLists.Proofs.Identity
import FilterLists.Proofs.Subscriptions

/-! Requests to add, whatever comes between their steps. Each takes effect at one moment, when it
appends a filter to the list or is told that its URL is listed, and its answer says which. -/
namespace FilterLists

structure AddCall where
  url : String
  name : String
  enabled : Bool
deriving DecidableEq, Repr

/-- The filter that is listed for a call, before anything is known of its content. -/
def AddCall.filter (call : AddCall) (id : FilterId) : Filter :=
  { id, url := call.url, name := call.name, enabled := call.enabled }

def ServiceEvent.call? : ServiceEvent → Option AddCall
  | .addBegins url name enabled => some { url, name, enabled }
  | _ => none

def calls (events : List ServiceEvent) : List AddCall :=
  events.filterMap ServiceEvent.call?

/-- A request has come so far with a call, having appended some filters. -/
def AddRequest.Accounts (call : AddCall) (appended : List Filter) : AddRequest → Prop
  | .checking url name enabled => call = ⟨url, name, enabled⟩ ∧ appended = []
  | .numbering url name enabled => call = ⟨url, name, enabled⟩ ∧ appended = []
  | .appending f => (∃ id, f = call.filter id) ∧ appended = []
  | .answered (.ok info) => ∃ id, appended = [call.filter id] ∧ info = (call.filter id).info
  | .answered (.error _) => appended = []

theorem AddRequest.accounts_begin (url name : String) (enabled : Bool) :
    (AddRequest.begin url name enabled).Accounts ⟨url, name, enabled⟩ [] := by
  unfold AddRequest.begin
  split
  · exact ⟨rfl, rfl⟩
  · rfl

/-- A step of a request appends what the request then accounts for. It is refused only where the
URL is listed. -/
theorem AddRequest.Accounts.step {call : AddCall} {appended : List Filter} {request : AddRequest}
    (h : request.Accounts call appended) (r : Registry) :
    ∃ more, (request.step r).1.filters = r.filters ++ more ∧
      (request.step r).2.Accounts call (appended ++ more) ∧
      ∀ e, (request.step r).2 = .answered (.error e) →
        request = .answered (.error e) ∨
          e = .duplicateFilter call.url ∧ r.contains call.url = true := by
  generalize hnext : request.step r = next
  cases AddRequest.isStep hnext with
  | refuses hlisted =>
    obtain ⟨rfl, rfl⟩ := h
    refine ⟨[], (List.append_nil _).symm, rfl, fun e he => .inr ?_⟩
    cases he
    exact ⟨rfl, hlisted⟩
  | passes =>
    obtain ⟨rfl, rfl⟩ := h
    exact ⟨[], (List.append_nil _).symm, ⟨rfl, rfl⟩, by simp⟩
  | numbers =>
    obtain ⟨rfl, rfl⟩ := h
    exact ⟨[], (List.append_nil _).symm, ⟨⟨_, rfl⟩, rfl⟩, by simp⟩
  | yields hlisted =>
    obtain ⟨⟨id, rfl⟩, rfl⟩ := h
    refine ⟨[], (List.append_nil _).symm, rfl, fun e he => .inr ?_⟩
    cases he
    exact ⟨rfl, hlisted⟩
  | appends =>
    obtain ⟨⟨id, rfl⟩, rfl⟩ := h
    exact ⟨[call.filter id], rfl, ⟨id, rfl, rfl⟩, by simp⟩
  | rests =>
    refine ⟨[], (List.append_nil _).symm, ?_, fun e he => .inl he⟩
    rw [List.append_nil]
    exact h

namespace LiveService

def appends (l : LiveService) (place : Nat) : ServiceEvent → List Filter
  | .addProceeds other =>
    if other = place then
      (l.step (.addProceeds other)).service.registry.filters.drop l.service.registry.filters.length
    else []
  | _ => []

def appended (l : LiveService) (place : Nat) : List ServiceEvent → List Filter
  | [] => []
  | e :: rest => l.appends place e ++ (l.step e).appended place rest

variable {l : LiveService} {e : ServiceEvent} {events : List ServiceEvent}

theorem appended_append (l : LiveService) (place : Nat) (first last : List ServiceEvent) :
    l.appended place (first ++ last) =
      l.appended place first ++ (l.run first).appended place last := by
  induction first generalizing l with
  | nil => rfl
  | cons e rest ih => rw [List.cons_append, appended, ih, appended, List.append_assoc, run_cons]

theorem appended_singleton (l : LiveService) (place : Nat) (e : ServiceEvent) :
    l.appended place [e] = l.appends place e :=
  List.append_nil _

/-- An event begins a request to add, or lets one make its next step, or leaves them all alone. -/
theorem adds_step (l : LiveService) (e : ServiceEvent) :
    (∃ url name enabled, e = .addBegins url name enabled ∧
      (l.step e).adds = l.adds ++ [.begin url name enabled]) ∨
    (∃ place request, e = .addProceeds place ∧ l.adds[place]? = some request) ∨
    (e.call? = none ∧ (l.step e).adds = l.adds ∧ ∀ place, l.appends place e = []) := by
  cases e with
  | addBegins url name enabled => exact .inl ⟨url, name, enabled, rfl, rfl⟩
  | addProceeds place =>
    right
    cases hrequest : l.adds[place]? with
    | some request => exact .inl ⟨place, request, rfl, hrequest⟩
    | none =>
      have hsame : l.step (.addProceeds place) = l := by simp only [step, hrequest]
      refine .inr ⟨rfl, by rw [hsame], fun other => ?_⟩
      rw [appends, hsame, List.drop_length, ite_self]
  | cycleEnds place =>
    right; right
    rcases l.cycleEnds_cases place with ⟨_, _, _, _, _, _, hadds, _⟩ | heq
    · exact ⟨rfl, hadds, fun _ => rfl⟩
    · exact ⟨rfl, by rw [heq], fun _ => rfl⟩
  | downloadStarts place faults =>
    exact .inr (.inr ⟨rfl, (l.downloadStarts_frame place faults).2.1, fun _ => rfl⟩)
  | persists place ticket faults now =>
    exact .inr (.inr ⟨rfl, (l.persists_frame place ticket faults now).2.1, fun _ => rfl⟩)
  | removeProceeds place faults =>
    exact .inr (.inr ⟨rfl, (l.removeProceeds_frame place faults).2.2, fun _ => rfl⟩)
  | cycleBegins | downloadEnds | removeBegins | switches | loadsAll | deduplicates | assignsId
  | raisesIdFloor | setsUserRules | fileVanishes => exact .inr (.inr ⟨rfl, rfl, fun _ => rfl⟩)

/-- An error that a call got: its URL or its name was refused, or its URL was listed when the
request took a step. -/
def IsRefused (l : LiveService) (events : List ServiceEvent) (place : Nat) (call : AddCall)
    (e : Error) : Prop :=
  checkSubscription call.url call.name = .error e ∨
    e = .duplicateFilter call.url ∧ ∃ first rest, events = first ++ .addProceeds place :: rest ∧
      call.url ∈ (l.run first).service.registry.filters.map (·.url)

/-- The requests of a run are those of its calls, and each accounts for what it has appended. -/
structure Accounted (l : LiveService) (events : List ServiceEvent) : Prop where
  length : (l.run events).adds.length = (calls events).length
  accounts : ∀ place call, (calls events)[place]? = some call →
    ∃ request, (l.run events).adds[place]? = some request ∧
      request.Accounts call (l.appended place events) ∧
      ∀ e, request = .answered (.error e) → l.IsRefused events place call e
  later : ∀ place, (calls events).length ≤ place → l.appended place events = []

theorem IsRefused.append {place : Nat} {call : AddCall} {error : Error}
    (h : l.IsRefused events place call error) (more : List ServiceEvent) :
    l.IsRefused (events ++ more) place call error := by
  rcases h with hinvalid | ⟨heq, first, rest, rfl, hlisted⟩
  · exact .inl hinvalid
  · exact .inr ⟨heq, first, rest ++ more, by simp, hlisted⟩

theorem accounted_nil (hadds : l.adds = []) : l.Accounted [] :=
  ⟨by rw [run, List.foldl_nil, hadds]; rfl, nofun, fun _ _ => rfl⟩

theorem Accounted.begins (h : l.Accounted events) (url name : String) (enabled : Bool) :
    l.Accounted (events ++ [.addBegins url name enabled]) := by
  have hcalls : calls (events ++ [.addBegins url name enabled]) =
      calls events ++ [⟨url, name, enabled⟩] := List.filterMap_append
  have hadds : (l.run (events ++ [.addBegins url name enabled])).adds =
      (l.run events).adds ++ [.begin url name enabled] := by
    rw [run_append]
    rfl
  have happended : ∀ place, l.appended place (events ++ [.addBegins url name enabled]) =
      l.appended place events := by
    intro place
    rw [appended_append]
    exact List.append_nil _
  constructor
  case length => simp [hadds, hcalls, h.length]
  case accounts =>
    intro place call hcall
    rw [happended, hadds]
    rw [hcalls] at hcall
    rcases Nat.lt_or_ge place (calls events).length with hlt | hge
    · rw [List.getElem?_append_left hlt] at hcall
      rw [List.getElem?_append_left (h.length.symm ▸ hlt)]
      obtain ⟨request, hrequest, haccounts, hrefused⟩ := h.accounts place call hcall
      exact ⟨request, hrequest, haccounts, fun e he => (hrefused e he).append _⟩
    · rw [List.getElem?_append_right hge] at hcall
      rw [List.getElem?_append_right (h.length.symm ▸ hge), h.length, h.later place hge]
      obtain rfl : _ = call := List.mem_singleton.mp (List.mem_of_getElem? hcall) |>.symm
      obtain ⟨hlt, -⟩ := List.getElem?_eq_some_iff.mp hcall
      have hfirst : place - (calls events).length = 0 := Nat.lt_one_iff.mp hlt
      refine ⟨_, by rw [hfirst]; rfl, AddRequest.accounts_begin url name enabled, fun e he => .inl ?_⟩
      unfold AddRequest.begin at he
      split at he <;> cases he
      assumption
  case later =>
    intro place hlength
    rw [happended]
    rw [hcalls, List.length_append] at hlength
    exact h.later place (by omega)

theorem Accounted.proceeds (h : l.Accounted events) {place : Nat} {request : AddRequest}
    (hrequest : (l.run events).adds[place]? = some request) :
    l.Accounted (events ++ [.addProceeds place]) := by
  have hcalls : calls (events ++ [.addProceeds place]) = calls events := by
    rw [calls, List.filterMap_append]
    exact List.append_nil _
  have hplace : place < (l.run events).adds.length := (List.getElem?_eq_some_iff.mp hrequest).1
  obtain ⟨hadds, hregistry⟩ := step_addProceeds hrequest
  have hlast : l.run (events ++ [.addProceeds place]) =
      (l.run events).step (.addProceeds place) := run_append l events _
  have hothers : ∀ other, other ≠ place →
      l.appended other (events ++ [.addProceeds place]) = l.appended other events := by
    intro other hother
    rw [appended_append, appended_singleton, appends, if_neg (Ne.symm hother), List.append_nil]
  constructor
  case length => rw [hlast, hadds, hcalls, List.length_set, h.length]
  case accounts =>
    intro other call hcall
    rw [hcalls] at hcall
    obtain ⟨before, hbefore, haccounts, hrefused⟩ := h.accounts other call hcall
    by_cases hother : other = place
    · subst hother
      obtain rfl : before = request := Option.some.inj (hbefore.symm.trans hrequest)
      obtain ⟨more, hmore, hafter, herror⟩ := haccounts.step (l.run events).service.registry
      refine ⟨_, by rw [hlast, hadds, List.getElem?_set_self hplace], ?_, fun e he => ?_⟩
      · rw [appended_append, appended_singleton, appends, if_pos rfl, hregistry, hmore,
          List.drop_left]
        exact hafter
      · rcases herror e he with hold | ⟨hduplicate, hlisted⟩
        · exact (hrefused e hold).append _
        · -- listed now, when the request takes its step, so after the events so far
          have hmem : call.url ∈ (l.run events).service.registry.filters.map (·.url) := by
            by_contra hnot
            rw [Registry.notMem_urls_iff.mp hnot] at hlisted
            cases hlisted
          exact .inr ⟨hduplicate, events, [], rfl, hmem⟩
    · refine ⟨before, by rw [hlast, hadds, List.getElem?_set_ne (Ne.symm hother), hbefore], ?_,
        fun e he => (hrefused e he).append _⟩
      rw [hothers other hother]
      exact haccounts
  case later =>
    intro other hlength
    rw [hcalls] at hlength
    have hne : other ≠ place := by
      have hlt := h.length ▸ hplace
      omega
    rw [hothers other hne]
    exact h.later other hlength

theorem Accounted.step (h : l.Accounted events) (e : ServiceEvent) :
    l.Accounted (events ++ [e]) := by
  rcases (l.run events).adds_step e with
    ⟨url, name, enabled, rfl, -⟩ | ⟨place, request, rfl, hrequest⟩ | ⟨hcall, hadds, happends⟩
  · exact h.begins url name enabled
  · exact h.proceeds hrequest
  · have hcalls : calls (events ++ [e]) = calls events := by
      rw [calls, List.filterMap_append, List.filterMap_cons_none hcall]
      exact List.append_nil _
    have happended : ∀ place, l.appended place (events ++ [e]) = l.appended place events := by
      intro place
      rw [appended_append, appended_singleton, happends, List.append_nil]
    have hsame : (l.run (events ++ [e])).adds = (l.run events).adds := by
      rw [run_append]
      exact hadds
    refine ⟨by rw [hsame, hcalls, h.length], fun place call hplace => ?_, fun place hlength => ?_⟩
    · rw [hcalls] at hplace
      obtain ⟨request, hrequest, haccounts, hrefused⟩ := h.accounts place call hplace
      rw [hsame, happended]
      exact ⟨request, hrequest, haccounts, fun error he => (hrefused error he).append [e]⟩
    · rw [happended]
      exact h.later place (hcalls ▸ hlength)

theorem accounted_run (hadds : l.adds = []) (events : List ServiceEvent) : l.Accounted events := by
  induction events using List.reverseRecOn with
  | nil => exact accounted_nil hadds
  | append_singleton events e ih => exact ih.step e

/-- The event begins the request in a place or lets it take a step. -/
def ActsFor (l : LiveService) (place : Nat) (e : ServiceEvent) : Prop :=
  e = .addProceeds place ∨ e.call?.isSome = true ∧ l.adds.length = place

/-- The request in a place has done for its call what its answer says. -/
structure Fulfils (l : LiveService) (events : List ServiceEvent) (place : Nat) (call : AddCall) :
    Prop where
  /-- Its steps append and change nothing else in the list. -/
  steps : ∀ first e rest, events = first ++ e :: rest → (l.run first).ActsFor place e →
    ((l.run first).step e).service.registry.filters =
      (l.run first).service.registry.filters ++ (l.run first).appends place e
  once : ∀ f ∈ l.appended place events, f = call.filter f.id ∧ l.appended place events = [f]
  succeeds : ∀ info, (l.run events).adds[place]? = some (.answered (.ok info)) ↔
    ∃ f, l.appended place events = [f] ∧ f.info = info
  fails : ∀ error, (l.run events).adds[place]? = some (.answered (.error error)) →
    l.IsRefused events place call error ∧
      ∀ first e rest, events = first ++ e :: rest → (l.run first).ActsFor place e →
        ((l.run first).step e).service.registry.filters = (l.run first).service.registry.filters

theorem ActsFor.filters_step {place : Nat} (h : l.ActsFor place e) :
    (l.step e).service.registry.filters = l.service.registry.filters ++ l.appends place e := by
  rcases h with rfl | ⟨hcall, -⟩
  · have hprefix : l.service.registry.filters <+:
        (l.step (.addProceeds place)).service.registry.filters := by
      simp only [step]
      split
      · exact prefix_addRequest _ _
      · exact List.prefix_rfl
    rw [appends, if_pos rfl]
    exact (List.prefix_iff_eq_append.mp hprefix).symm
  · cases e <;> first | exact (List.append_nil _).symm | cases hcall

theorem Accounted.fulfils (h : l.Accounted events) {place : Nat} {call : AddCall}
    (hcall : (calls events)[place]? = some call) : l.Fulfils events place call := by
  obtain ⟨request, hrequest, haccounts, hrefused⟩ := h.accounts place call hcall
  refine ⟨fun first e rest _ hacts => hacts.filters_step, ?_, ?_, fun error herror => ?_⟩
  · intro f hf
    cases request with
    | checking | numbering | appending =>
      rw [haccounts.2] at hf
      cases hf
    | answered result =>
      cases result with
      | error error =>
        have hnone : l.appended place events = [] := haccounts
        rw [hnone] at hf
        cases hf
      | ok info =>
        obtain ⟨id, hone, -⟩ := haccounts
        rw [hone] at hf ⊢
        obtain rfl := List.mem_singleton.mp hf
        exact ⟨rfl, rfl⟩
  · intro info
    rw [hrequest]
    cases request with
    | checking | numbering | appending => simp [haccounts.2]
    | answered result =>
      cases result with
      | error error =>
        have hnone : l.appended place events = [] := haccounts
        simp [hnone]
      | ok answer =>
        obtain ⟨id, hone, rfl⟩ := haccounts
        simp [hone]
  · obtain rfl := Option.some.inj (hrequest.symm.trans herror)
    refine ⟨hrefused error rfl, fun first e rest hevents hacts => ?_⟩
    have hnone : l.appended place events = [] := haccounts
    rw [hevents, appended_append, appended] at hnone
    have happends := (List.append_eq_nil_iff.mp (List.append_eq_nil_iff.mp hnone).2).1
    rw [hacts.filters_step, happends, List.append_nil]

end LiveService

end FilterLists
