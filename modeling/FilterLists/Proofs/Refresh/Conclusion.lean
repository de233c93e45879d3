import FilterLists.LiveService

/-! What the end of a cycle does to the parts of a service. The registry takes over the results
whether or not the engine accepts them, and the cache is left alone. -/
namespace FilterLists

namespace Refresh

/-- The engine gets the rules of the merged registry, rejects them, or is not asked. -/
theorem conclude_cases (s : Service) (results : List Refreshed) :
    (∃ rules, RuleSet.ofRegistry (s.registry.merge results).1 = .ok rules ∧
      conclude s results =
        ({ s with registry := (s.registry.merge results).1, engine := { s.engine with rules } },
          .ok (s.registry.merge results).2)) ∨
    (∃ e, RuleSet.ofRegistry (s.registry.merge results).1 = .error e ∧
      0 < (s.registry.merge results).2 ∧
      conclude s results = ({ s with registry := (s.registry.merge results).1 }, .error e)) ∨
    (¬ (0 < (s.registry.merge results).2 ∧ s.engine.running = true) ∧
      conclude s results =
        ({ s with registry := (s.registry.merge results).1 },
          .ok (s.registry.merge results).2)) := by
  simp only [conclude, Service.reconfigure, Engine.reconfigure]
  by_cases hasked : 0 < (s.registry.merge results).2 ∧ s.engine.running = true
  · rw [if_pos hasked]
    cases hrules : RuleSet.ofRegistry (s.registry.merge results).1 with
    | ok rules => exact .inl ⟨rules, rfl, rfl⟩
    | error e => exact .inr (.inl ⟨e, rfl, hasked.1, rfl⟩)
  · rw [if_neg hasked]
    exact .inr (.inr ⟨hasked, rfl⟩)

theorem conclude_frame (s : Service) (results : List Refreshed) :
    (conclude s results).1.registry = (s.registry.merge results).1 ∧
      (conclude s results).1.store = s.store ∧
      (conclude s results).1.engine.running = s.engine.running := by
  rcases conclude_cases s results with ⟨rules, _, heq⟩ | ⟨e, _, _, heq⟩ | ⟨_, heq⟩ <;>
    rw [heq] <;> exact ⟨rfl, rfl, rfl⟩

end Refresh

namespace Cycle

theorem registry_conclude (s : Service) (c : Cycle) :
    (c.conclude s).1.registry = (s.registry.merge c.results).1 :=
  (Refresh.conclude_frame s c.results).1

theorem store_conclude (s : Service) (c : Cycle) : (c.conclude s).1.store = s.store :=
  (Refresh.conclude_frame s c.results).2.1

end Cycle

namespace LiveService

/-- A cycle that is ready to end is merged and leaves; one that is not changes nothing. -/
theorem cycleEnds_cases (l : LiveService) (place : Nat) :
    (∃ c, l.cycles[place]? = some c ∧ c.isDone = true ∧
      (l.step (.cycleEnds place)).service = (c.conclude l.service).1 ∧
      (l.step (.cycleEnds place)).cycles = l.cycles.eraseIdx place ∧
      (l.step (.cycleEnds place)).ended = (c.conclude l.service).2 :: l.ended ∧
      (l.step (.cycleEnds place)).adds = l.adds ∧
      (l.step (.cycleEnds place)).removals = l.removals) ∨
    l.step (.cycleEnds place) = l := by
  simp only [step]
  cases hc : l.cycles[place]? with
  | none => exact .inr rfl
  | some c =>
    simp only [endCycle]
    cases hdone : c.isDone with
    | true => exact .inl ⟨c, rfl, hdone, rfl, rfl, rfl, rfl, rfl⟩
    | false => exact .inr rfl

theorem run_cons (l : LiveService) (e : ServiceEvent) (events : List ServiceEvent) :
    l.run (e :: events) = (l.step e).run events :=
  rfl

theorem run_append (l : LiveService) (first last : List ServiceEvent) :
    l.run (first ++ last) = (l.run first).run last :=
  List.foldl_append

end LiveService

end FilterLists
