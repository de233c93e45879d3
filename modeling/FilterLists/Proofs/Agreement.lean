import FilterLists.Proofs.Consistency
import FilterLists.Proofs.Registry.Undated
import FilterLists.Proofs.Refresh.Script

/-! The rules that the engine serves are those of the registry as long as no cycle is rejected. A
rejected cycle leaves the rules in place while the registry keeps what it has merged, so the two
agree again only when a later cycle brings rules that the engine accepts. -/
namespace FilterLists

/-- The engine serves the rule set of the local rules and the filters that are loaded at present. -/
def Service.Agrees (s : Service) : Prop :=
  RuleSet.ofRegistry s.registry = .ok s.engine.rules

instance (s : Service) : Decidable s.Agrees :=
  inferInstanceAs (Decidable (RuleSet.ofRegistry s.registry = .ok s.engine.rules))

theorem Service.agrees_startEngine {s : Service} (h : s.startEngine.2 = .ok ()) :
    s.startEngine.1.Agrees ∧ s.startEngine.1.engine.running = true := by
  simp only [startEngine, Engine.start, Engine.reconfigure] at h ⊢
  cases hrules : RuleSet.ofRegistry s.registry with
  | ok rules => exact ⟨hrules, rfl⟩
  | error e =>
    simp only [hrules] at h
    cases h

namespace Refresh

/-- A cycle that ends without an error keeps the agreement. It is enough that new content reaches a
running engine, since a merge that counts none has changed no rule. -/
theorem agrees_conclude {s : Service} {results : List Refreshed} {n : Nat} (h : s.Agrees)
    (hrunning : s.engine.running = true) (hok : (conclude s results).2 = .ok n) :
    (conclude s results).1.Agrees := by
  rcases conclude_cases s results with ⟨rules, hrules, heq⟩ | ⟨e, _, _, heq⟩ | ⟨hnone, heq⟩
  · rw [heq]
    exact hrules
  · rw [heq] at hok
    cases hok
  · have hzero : (s.registry.merge results).2 = 0 := by
      by_contra hne
      exact hnone ⟨Nat.pos_of_ne_zero hne, hrunning⟩
    rw [heq]
    calc
      RuleSet.ofRegistry (s.registry.merge results).1 =
          RuleSet.ofRegistry (s.registry.merge results).1.undated :=
        (RuleSet.ofRegistry_undated _).symm
      _ = RuleSet.ofRegistry s.registry.undated := by
        rw [Registry.merge, Registry.undated_mergeFrom hzero]
      _ = RuleSet.ofRegistry s.registry := RuleSet.ofRegistry_undated _
      _ = .ok s.engine.rules := h

/-- New content that reaches a running engine brings the two together, whatever they were before. -/
theorem agrees_conclude_of_pos {s : Service} {results : List Refreshed} {n : Nat} (hn : 0 < n)
    (hrunning : s.engine.running = true) (hok : (conclude s results).2 = .ok n) :
    (conclude s results).1.Agrees := by
  rcases conclude_cases s results with ⟨rules, hrules, heq⟩ | ⟨e, _, _, heq⟩ | ⟨hnone, heq⟩
  · rw [heq]
    exact hrules
  · rw [heq] at hok
    cases hok
  · rw [heq] at hok
    cases hok
    exact absurd ⟨hn, hrunning⟩ hnone

theorem conclude_rejected {s : Service} {results : List Refreshed} {e : Error}
    (herror : (conclude s results).2 = .error e) :
    (conclude s results).1 = { s with registry := (s.registry.merge results).1 } ∧
      0 < (s.registry.merge results).2 := by
  rcases conclude_cases s results with ⟨rules, _, heq⟩ | ⟨_, _, hpos, heq⟩ | ⟨_, heq⟩
  · rw [heq] at herror
    cases herror
  · exact ⟨by rw [heq], hpos⟩
  · rw [heq] at herror
    cases herror

end Refresh

namespace LiveService

/-- A cycle was rejected, and all cycles since then have counted nothing. -/
def isRejected : List (Except Error Nat) → Bool
  | [] => false
  | .error _ :: _ => true
  | .ok 0 :: earlier => isRejected earlier
  | .ok (_ + 1) :: _ => false

/-- The engine runs, and it serves the rules of the registry unless it has rejected them. -/
def ServesRegistry (l : LiveService) : Prop :=
  l.service.engine.running = true ∧ (isRejected l.ended = false → l.service.Agrees)

/-- One cycle keeps the engine with the registry or brings it back to it. -/
theorem servesRegistry_runAlone {l : LiveService} (h : l.ServesRegistry) {script : CycleScript}
    (hidle : l.isIdle = true) (hends : (l.runAlone script).isIdle = true) :
    (l.runAlone script).ServesRegistry := by
  obtain ⟨hrunning, hagrees⟩ := h
  obtain ⟨_, heq⟩ := runAlone_of_isIdle (isIdle_iff.mp hidle) hends
  rw [heq]
  refine ⟨(Refresh.conclude_frame _ _).2.2.trans hrunning, ?_⟩
  simp only
  cases hresult : ((l.lastState script).2.conclude
      { l.service with store := (l.lastState script).1 }).2 with
  | error e => exact fun hnot => Bool.noConfusion hnot
  | ok n =>
    cases n with
    | zero =>
      intro hnot
      exact Refresh.agrees_conclude (s := { l.service with store := (l.lastState script).1 })
        (hagrees hnot) hrunning hresult
    | succ n =>
      intro _
      exact Refresh.agrees_conclude_of_pos (s := { l.service with store := (l.lastState script).1 })
        n.succ_pos hrunning hresult

theorem servesRegistry_runInTurn {l : LiveService} (h : l.ServesRegistry)
    {scripts : List CycleScript} (hcompletes : l.Completes scripts) :
    (l.runInTurn scripts).ServesRegistry := by
  induction scripts generalizing l with
  | nil => exact h
  | cons script rest ih =>
    exact ih (servesRegistry_runAlone h hcompletes.1 hcompletes.2.isIdle) hcompletes.2

theorem isIdle_of_ended {l : LiveService} (hidle : l.isIdle = true) {script : CycleScript}
    {result : Except Error Nat} (h : (l.runAlone script).ended = result :: l.ended) :
    (l.runAlone script).isIdle = true := by
  rcases runAlone_cases (isIdle_iff.mp hidle) script with ⟨_, heq⟩ | ⟨_, heq⟩
  · rw [heq]
    rfl
  · rw [heq] at h
    exact absurd (congrArg List.length h) (by simp [during, withStore])

/-- An engine that was started serves the rules of its registry after every cycle without an error,
unless a cycle was rejected and all cycles since then have counted nothing. A rejected cycle leaves
the engine as it was and the registry with everything that it has merged. Whatever was changed
before a cycle, the two agree after it if it brought new content to a running engine without an
error. -/
theorem engine_follows_registry (policy : RefreshPolicy) :
    (∀ (s : Service) (scripts : List CycleScript), s.startEngine.2 = .ok () →
      let start : LiveService := { service := s.startEngine.1, policy }
      start.Completes scripts → isRejected (start.runInTurn scripts).ended = false →
      (start.runInTurn scripts).service.Agrees) ∧
    (∀ (l : LiveService) (script : CycleScript) (e : Error), l.isIdle = true →
      (l.runAlone script).ended = .error e :: l.ended →
      (l.runAlone script).service.engine = l.service.engine ∧
        (l.runAlone script).service.registry =
          (l.service.registry.merge (l.lastState script).2.results).1 ∧
        0 < (l.service.registry.merge (l.lastState script).2.results).2) ∧
    (∀ (l : LiveService) (script : CycleScript) (n : Nat), l.isIdle = true →
      l.service.engine.running = true → 0 < n →
      (l.runAlone script).ended = .ok n :: l.ended → (l.runAlone script).service.Agrees) := by
  refine ⟨?_, ?_, ?_⟩
  · intro s scripts hstart start hcompletes hnot
    obtain ⟨hagrees, hrunning⟩ := Service.agrees_startEngine hstart
    have hserves : start.ServesRegistry := ⟨hrunning, fun _ => hagrees⟩
    exact (servesRegistry_runInTurn hserves hcompletes).2 hnot
  · intro l script e hidle hended
    have hends := isIdle_of_ended hidle hended
    obtain ⟨hregistry, _⟩ := runAlone_frame (isIdle_iff.mp hidle) hends
    obtain ⟨_, heq⟩ := runAlone_of_isIdle (isIdle_iff.mp hidle) hends
    rw [heq] at hended
    obtain ⟨hservice, hpos⟩ := Refresh.conclude_rejected (List.cons.inj hended).1
    refine ⟨?_, hregistry, hpos⟩
    rw [heq]
    simp only [Cycle.conclude, hservice]
  · intro l script n hidle hrunning hn hended
    obtain ⟨_, heq⟩ := runAlone_of_isIdle (isIdle_iff.mp hidle) (isIdle_of_ended hidle hended)
    rw [heq] at hended ⊢
    exact Refresh.agrees_conclude_of_pos (s := { l.service with store := (l.lastState script).1 })
      hn hrunning (List.cons.inj hended).1

def loadedFilter : Filter :=
  ({ id := 1, url := "http://a", enabled := true, lastUpdated := some ⟨0⟩ } : Filter).setContent
    (bytesOf "x")

def oneLoaded : Service :=
  { registry := { filters := [loadedFilter] }, store := { path := "cache" } }

/-- A loaded filter, and one with the same id that holds nothing yet. -/
def sharedId : Service :=
  { registry := { filters := [loadedFilter, { id := 1, url := "http://b", enabled := true }] }
    store := { path := "cache" } }

def onlyDownload : CycleScript :=
  { now := ⟨0⟩
    force := true
    moves :=
      [.downloadStarts Faults.none, .downloadEnds 0 (.plainText "y"),
        .persists 0 Faults.none ⟨0⟩] }

def secondDownload : CycleScript :=
  { now := ⟨0⟩
    force := true
    moves :=
      [.downloadStarts Faults.none, .downloadStarts Faults.none,
        .downloadEnds 0 (.failed "no answer"), .downloadEnds 1 (.plainText "y"),
        .persists 1 Faults.none ⟨0⟩] }

def nothingDue : CycleScript :=
  { now := ⟨0⟩, force := false, moves := [] }

def sharedIdServed : LiveService :=
  { service := sharedId.startEngine.1 }

/-- An engine that runs without the rules of its registry. -/
def behind : LiveService :=
  { service := { oneLoaded with engine := { running := true } } }

theorem engine_follows_registry_in_runs :
    (oneLoaded.startEngine.2 = .ok () ∧
      let start : LiveService := { service := oneLoaded.startEngine.1, policy := {} }
      start.Completes [onlyDownload, nothingDue] ∧
      isRejected (start.runInTurn [onlyDownload, nothingDue]).ended = false ∧
      (start.runInTurn [onlyDownload, nothingDue]).service.Agrees) ∧
    (sharedIdServed.isIdle = true ∧
      (sharedIdServed.runAlone secondDownload).ended =
        .error (.duplicateId 1) :: sharedIdServed.ended ∧
      (sharedIdServed.runAlone secondDownload).service.engine = sharedIdServed.service.engine) ∧
    (behind.isIdle = true ∧ behind.service.engine.running = true ∧ ¬ behind.service.Agrees ∧
      (behind.runAlone onlyDownload).ended = .ok 1 :: behind.ended ∧
      (behind.runAlone onlyDownload).service.Agrees) := by
  obtain ⟨hrun, hreject, hrenew⟩ := engine_follows_registry {}
  refine ⟨?_, ?_, ?_⟩
  · have hstart : oneLoaded.startEngine.2 = .ok () := by decide +kernel
    have hcompletes : ({ service := oneLoaded.startEngine.1, policy := {} } : LiveService).Completes
        [onlyDownload, nothingDue] := by decide +kernel
    have hnot : isRejected (({ service := oneLoaded.startEngine.1, policy := {} } :
        LiveService).runInTurn [onlyDownload, nothingDue]).ended = false := by
      decide +kernel
    exact ⟨hstart, hcompletes, hnot, hrun oneLoaded _ hstart hcompletes hnot⟩
  · have hended : (sharedIdServed.runAlone secondDownload).ended =
        .error (.duplicateId 1) :: sharedIdServed.ended := by decide +kernel
    exact ⟨rfl, hended, (hreject sharedIdServed _ _ rfl hended).1⟩
  · have hbehind : ¬ behind.service.Agrees := by decide +kernel
    have hended : (behind.runAlone onlyDownload).ended = .ok 1 :: behind.ended := by decide +kernel
    exact ⟨rfl, rfl, hbehind, hended, hrenew behind _ 1 rfl rfl Nat.one_pos hended⟩

/-- After a rejected cycle, one without an error can leave the engine behind the registry. -/
theorem not_agrees_after_rejection :
    (∀ f ∈ sharedId.registry.filters, f.Consistent) ∧ sharedId.startEngine.2 = .ok () ∧
      sharedIdServed.Completes [secondDownload, nothingDue] ∧
      (sharedIdServed.runInTurn [secondDownload, nothingDue]).ended =
        [.ok 0, .error (.duplicateId 1)] ∧
      ¬ (sharedIdServed.runInTurn [secondDownload, nothingDue]).service.Agrees := by
  refine ⟨?_, ?_, ?_, ?_, ?_⟩
  · refine List.forall_mem_cons.mpr ⟨?_, List.forall_mem_singleton.mpr ?_⟩
    · exact (Filter.isFilled_setContent _ _).consistent rfl
    · exact Filter.IsBare.consistent ⟨rfl, rfl, rfl⟩
  · decide +kernel
  · decide +kernel
  · decide +kernel
  · decide +kernel

end LiveService

end FilterLists
