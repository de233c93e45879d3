import FilterLists.Proofs.Refresh.Following

/-! The refresh of one filter as if there were no other. It depends on the reply to that filter and
on its own file, and it is settled by the verdict on the filter. -/
namespace FilterLists

namespace Registry

/-- A live filter after a refresh with this outcome, without its time. -/
def settled (outcome : Option Refreshed) (live : Filter) : Filter :=
  match outcome with
  | some fresh => (takeOver fresh live).undated
  | none => live.undated

def isRenewed (outcome : Option Refreshed) (live : Filter) : Bool :=
  outcome.any (fun fresh => fresh.changed && live.enabled)

theorem takeOver_undated (fresh : Refreshed) (live : Filter) :
    (takeOver fresh.undated live).undated = (takeOver fresh live).undated := by
  cases h : (fresh.changed && live.enabled) with
  | true => simp [takeOver, Refreshed.undated, Filter.undated, h]
  | false => simp [takeOver, Refreshed.undated, Filter.undated, h]

theorem landed_undated {results : List Refreshed} {live : Filter} {outcome : Option Refreshed}
    (h : (landing? results live).map Refreshed.undated = outcome) :
    (landed results live).undated = settled outcome live ∧
      renewed results live = isRenewed outcome live := by
  subst h
  unfold landed renewed settled isRenewed
  cases landing? results live with
  | none => exact ⟨rfl, rfl⟩
  | some fresh => exact ⟨(takeOver_undated fresh live).symm, rfl⟩

end Registry

/-- The end of a cycle after the merge: a running engine is told of new content. -/
def Service.announce (s : Service) (updated : Nat) : Service × Except Error Nat :=
  if 0 < updated ∧ s.engine.running then
    match s.reconfigure with
    | (configured, .ok ()) => (configured, .ok updated)
    | (rejected, .error e) => (rejected, .error e)
  else (s, .ok updated)

namespace Service

theorem announce_registry (s : Service) (updated : Nat) :
    (s.announce updated).1.registry = s.registry := by
  unfold announce reconfigure Engine.reconfigure
  split
  · cases RuleSet.ofRegistry s.registry with
    | ok rules => rfl
    | error e => rfl
  · rfl

/-- The times of the filters make no difference to what the engine is told. -/
theorem announce_congr {s t : Service} (hregistry : s.registry.undated = t.registry.undated)
    (hengine : s.engine = t.engine) (updated : Nat) :
    (s.announce updated).1.engine = (t.announce updated).1.engine ∧
      (s.announce updated).2 = (t.announce updated).2 := by
  have hrules : RuleSet.ofRegistry s.registry = RuleSet.ofRegistry t.registry := by
    rw [← RuleSet.ofRegistry_undated s.registry, hregistry, RuleSet.ofRegistry_undated]
  unfold announce reconfigure Engine.reconfigure
  rw [hrules, hengine]
  split
  · cases RuleSet.ofRegistry t.registry with
    | ok rules => exact ⟨rfl, rfl⟩
    | error e => exact ⟨rfl, rfl⟩
  · exact ⟨hengine, rfl⟩

end Service

namespace Refresh

theorem conclude_eq_announce (s : Service) (results : List Refreshed) :
    conclude s results =
      Service.announce { s with registry := (s.registry.merge results).1 }
        (s.registry.merge results).2 :=
  rfl

/-- What a cycle has for a filter: the verdict on its working copy, if it takes part. -/
def fate (s : Store) (policy : RefreshPolicy) (env : Surroundings) (now : Instant) (force : Bool)
    (f : Filter) : Option Refreshed :=
  if isDue policy now force f then env.verdict s f.refreshCopy else none

theorem verdict_congr {s t : Store} {faults : Faults} {reply : Reply} {f : Filter}
    (h : s.cached f.id = t.cached f.id) : verdict s faults reply f = verdict t faults reply f := by
  unfold verdict
  rw [prepare_congr h]
  cases happly : Fetch.apply reply (prepare t faults f) with
  | error e => rfl
  | ok result =>
    obtain ⟨fetched, changed⟩ := result
    have hid : fetched.id = f.id :=
      (Fetch.apply_subscription happly).1.trans (prepare_subscription t faults f).1
    simp only [Store.accepts_congr (s := s) (t := t) (f := fetched) (by rw [hid, h])]

end Refresh

namespace Service

/-- The refresh of one filter in a service without any other. -/
def refreshOnly (s : Service) (policy : RefreshPolicy) (env : Surroundings) (now : Instant)
    (force : Bool) (f : Filter) : Service × Except Error Nat :=
  Refresh.execute { registry := { s.registry with filters := [f] }, store := s.store } policy
    (fun g => env.faults g.id) env.network now force

theorem conclude_single (r : Registry) (store : Store) (f : Filter) {results : List Refreshed}
    (hdistinct : (results.map (·.filter.id)).Nodup) :
    Refresh.conclude { registry := { r with filters := [f] }, store } results =
      ({ registry := { r with filters := [Registry.landed results f] }, store },
        .ok (if Registry.renewed results f then 1 else 0)) := by
  have hmerge : Registry.merge { r with filters := [f] } results =
      ({ r with filters := [Registry.landed results f] },
        if Registry.renewed results f then 1 else 0) := by
    rw [Registry.merge, Registry.mergeFrom_eq 0 (by simp) hdistinct]
    simp
  rw [Refresh.conclude_eq_announce, hmerge]
  simp [announce]

theorem landing?_one (store : Store) (faults : Faults) (now : Instant) (reply : Reply)
    (f : Filter) :
    (Registry.landing? (Refresh.one store faults now reply f.refreshCopy).2.toList f).map
      Refreshed.undated = Refresh.verdict store faults reply f.refreshCopy := by
  have hverdict := (Refresh.one_verdict store faults now reply f.refreshCopy).1
  cases hout : (Refresh.one store faults now reply f.refreshCopy).2 with
  | none =>
    rw [hout] at hverdict
    exact hverdict
  | some fresh =>
    rw [hout] at hverdict
    obtain ⟨hid, hurl⟩ := Refresh.verdict_subscription hverdict.symm
    have hsame : Registry.sameSubscription f fresh.filter = true :=
      Registry.sameSubscription_iff.mpr ⟨hid.symm, hurl.symm⟩
    rw [← hverdict, Registry.landing?_eq_some (by simp) (Option.mem_toList.mpr rfl) hsame]

/-- A service with a single filter comes to the fate of that filter. -/
theorem refreshOnly_spec (s : Service) (policy : RefreshPolicy) (env : Surroundings) (now : Instant)
    (force : Bool) (f : Filter) :
    (∃ live, (s.refreshOnly policy env now force f).1.registry =
        { s.registry with filters := [live] } ∧
      live.undated = Registry.settled (Refresh.fate s.store policy env now force f) f) ∧
    (s.refreshOnly policy env now force f).1.store.contents f.id =
      Refresh.contentsAfter s.store f.id (Refresh.fate s.store policy env now force f) ∧
    (s.refreshOnly policy env now force f).2 =
      .ok (if Registry.isRenewed (Refresh.fate s.store policy env now force f) f
        then 1 else 0) := by
  unfold refreshOnly Refresh.execute Refresh.fate
  rw [Refresh.candidates_eq]
  cases hdue : Refresh.isDue policy now force f with
  | false =>
    simp only [List.filter_cons, hdue, List.filter_nil, List.map_nil, Refresh.all,
      Bool.false_eq_true, if_false]
    rw [conclude_single _ _ _ (by simp)]
    exact ⟨⟨f, rfl, rfl⟩, rfl, rfl⟩
  | true =>
    simp only [List.filter_cons, hdue, List.filter_nil, List.map_cons, List.map_nil, Refresh.all,
      if_true, List.append_nil]
    have hdistinct : ((Refresh.one s.store (env.faults f.refreshCopy.id) now
        (env.network f.refreshCopy.url) f.refreshCopy).2.toList.map (·.filter.id)).Nodup := by
      cases (Refresh.one s.store (env.faults f.refreshCopy.id) now (env.network f.refreshCopy.url)
        f.refreshCopy).2 <;> simp
    obtain ⟨hlanded, hrenewed⟩ := Registry.landed_undated
      (landing?_one s.store (env.faults f.id) now (env.network f.url) f)
    rw [conclude_single _ _ _ hdistinct]
    refine ⟨⟨_, rfl, hlanded⟩, ?_, ?_⟩
    · exact (Refresh.one_verdict s.store (env.faults f.id) now (env.network f.url) f.refreshCopy).2
    · exact congrArg (fun flag : Bool => (.ok (if flag then 1 else 0) : Except Error Nat)) hrenewed

end Service

end FilterLists
