import FilterLists.Proofs.Parsing
import FilterLists.Proofs.Registry.Update
import FilterLists.Service

/-! Filters compile to a rule set just if no two of them have the same id. The set has each filter
in its place with all rules of its content, and the first id that repeats an earlier one is refused.
-/
namespace FilterLists

namespace RuleSet
variable {filters : List Filter}

def compiled (f : Filter) : CompiledFilter :=
  { id := f.id, rules := rulesOf f }

/-- The rule set of filters whose ids are distinct. -/
def ofFilters (filters : List Filter) : RuleSet :=
  { filters := filters.map compiled
    totalRules := (filters.map (fun f => (rulesOf f).length)).sum }

theorem addFilter_ofFilters (before : List Filter) (f : Filter) :
    (ofFilters before).addFilter f =
      if f.id ∈ before.map (·.id) then .error (.duplicateId f.id)
      else .ok (ofFilters (before ++ [f])) := by
  have hseen : (ofFilters before).filters.any (fun c => c.id = f.id) = true ↔
      f.id ∈ before.map (·.id) := by
    simp only [ofFilters, List.any_map, List.any_eq_true, List.mem_map]
    exact exists_congr fun _ => and_congr_right fun _ => decide_eq_true_iff
  simp only [addFilter, hseen]
  split
  · rfl
  · simp [ofFilters, compiled]

/-- Added to filters with distinct ids, more filters make a rule set together with these, or the
first one whose id occurs before it is refused. -/
theorem foldlM_addFilter_cases (before : List Filter) (hbefore : (before.map (·.id)).Nodup) :
    (((before ++ filters).map (·.id)).Nodup ∧
      filters.foldlM addFilter (ofFilters before) = .ok (ofFilters (before ++ filters))) ∨
    ∃ early f late, before ++ filters = early ++ f :: late ∧ (early.map (·.id)).Nodup ∧
      f.id ∈ early.map (·.id) ∧
      filters.foldlM addFilter (ofFilters before) = .error (.duplicateId f.id) := by
  induction filters generalizing before with
  | nil =>
    rw [List.append_nil]
    exact .inl ⟨hbefore, rfl⟩
  | cons f rest ih =>
    rw [List.foldlM_cons, addFilter_ofFilters]
    by_cases hseen : f.id ∈ before.map (·.id)
    · rw [if_pos hseen]
      exact .inr ⟨before, f, rest, rfl, hbefore, hseen, rfl⟩
    · -- The filters before stay distinct, since the id of this one is new to them.
      rw [if_neg hseen, List.append_cons]
      refine ih (before ++ [f]) ?_
      rw [List.map_append]
      exact hbefore.append (List.nodup_singleton _) (List.disjoint_singleton.mpr hseen)

theorem compile_cases (filters : List Filter) :
    ((filters.map (·.id)).Nodup ∧ compile filters = .ok (ofFilters filters)) ∨
    ∃ early f late, filters = early ++ f :: late ∧ (early.map (·.id)).Nodup ∧
      f.id ∈ early.map (·.id) ∧ compile filters = .error (.duplicateId f.id) :=
  foldlM_addFilter_cases [] List.nodup_nil

theorem not_nodup_of_repeats {early late : List Filter} {f : Filter}
    (h : f.id ∈ early.map (·.id)) : ¬ ((early ++ f :: late).map (·.id)).Nodup := by
  rw [List.map_append, List.map_cons]
  exact fun hnodup => (List.nodup_append.mp hnodup).2.2 f.id h f.id List.mem_cons_self rfl

theorem exists_compile_iff :
    (∃ rules, compile filters = .ok rules) ↔ (filters.map (·.id)).Nodup := by
  rcases compile_cases filters with ⟨hids, heq⟩ | ⟨early, f, late, rfl, -, hrepeats, heq⟩
  · simp [heq, hids]
  · simp only [heq, reduceCtorEq, exists_false, false_iff]
    exact not_nodup_of_repeats hrepeats

/-- The counter of the summary and the list of rules come from the same lines. -/
theorem length_rulesOf {f : Filter}
    (h : f.ruleCount = f.content.elim 0 fun content => (Content.Summary.ofBytes content).ruleCount) :
    (rulesOf f).length = f.ruleCount := by
  cases hcontent : f.content with
  | none => simpa [rulesOf, hcontent] using h.symm
  | some content => simpa [rulesOf, hcontent, Content.Summary.ofBytes_eq] using h.symm

/-- Filters fail to compile just if an id occurs twice, and then the first filter with the id of an
earlier one is named. Otherwise each filter has its own rules, in its place, and the total is the
sum of their numbers: the one that a list of these filters gives, if their counts are right. -/
theorem compile_exact (filters : List Filter) :
    ((∃ fault, compile filters = .error fault) ↔ ¬ (filters.map (·.id)).Nodup) ∧
    (∀ fault, compile filters = .error fault →
      ∃ early f late, filters = early ++ f :: late ∧ (early.map (·.id)).Nodup ∧
        f.id ∈ early.map (·.id) ∧ fault = .duplicateId f.id) ∧
    ∀ rules, compile filters = .ok rules →
      rules.filters = filters.map
        (fun f => { id := f.id, rules := f.content.elim [] Content.rules }) ∧
      rules.totalRules = (rules.filters.map (fun c => c.rules.length)).sum ∧
      ((∀ f ∈ filters, f.ruleCount =
          f.content.elim 0 fun content => (Content.Summary.ofBytes content).ruleCount) →
        rules.totalRules = (({ filters } : Registry).list.map (·.ruleCount)).sum) := by
  rcases compile_cases filters with ⟨hids, heq⟩ | ⟨early, f, late, hsplit, hearly, hrepeats, heq⟩
  · refine ⟨by simp [heq, hids], fun fault hfault => ?_, fun rules hrules => ?_⟩
    · cases heq.symm.trans hfault
    · obtain rfl : ofFilters filters = rules := Except.ok.inj (heq.symm.trans hrules)
      refine ⟨?_, ?_, fun hcounts => ?_⟩
      · refine List.map_congr_left (fun f _ => ?_)
        simp only [compiled, rulesOf]
        cases f.content <;> rfl
      · simp only [ofFilters, List.map_map]
        rfl
      · simp only [ofFilters, Registry.list, List.map_map]
        congr 1
        exact List.map_congr_left (fun f hf => length_rulesOf (hcounts f hf))
  · refine ⟨?_, fun fault hfault => ?_, fun rules hrules => ?_⟩
    · simp only [heq, Except.error.injEq, exists_eq', true_iff]
      rw [hsplit]
      exact not_nodup_of_repeats hrepeats
    · exact ⟨early, f, late, hsplit, hearly, hrepeats, (Except.error.inj (heq.symm.trans hfault)).symm⟩
    · cases heq.symm.trans hrules

/-- Two filters with rules, and one without content between them. -/
def threeFilters : List Filter :=
  [({ id := 5, url := "http://a" } : Filter).setContent (bytesOf "! Title: A\n a.example\n\nb.example"),
    { id := 3, url := "http://b" },
    ({ id := 4, url := "http://c" } : Filter).setContent (bytesOf "c.example")]

theorem compile_exact_of_threeFilters :
    (∃ rules, compile threeFilters = .ok rules ∧
      rules.filters.map (·.rules) = [["a.example", "b.example"], [], ["c.example"]] ∧
      rules.totalRules = (({ filters := threeFilters } : Registry).list.map (·.ruleCount)).sum) ∧
    ∃ fault, compile (threeFilters ++ threeFilters) = .error fault ∧
      fault = .duplicateId 5 := by
  obtain ⟨-, -, hexact⟩ := compile_exact threeFilters
  obtain ⟨hfails, -, -⟩ := compile_exact (threeFilters ++ threeFilters)
  have hcounts : ∀ f ∈ threeFilters, f.ruleCount =
      f.content.elim 0 fun content => (Content.Summary.ofBytes content).ruleCount := by
    intro f hf
    simp only [threeFilters, List.mem_cons, List.not_mem_nil, or_false] at hf
    rcases hf with rfl | rfl | rfl <;> rfl
  obtain ⟨rules, hrules⟩ := exists_compile_iff.mpr (show (threeFilters.map (·.id)).Nodup by decide)
  obtain ⟨hfilters, -, htotal⟩ := hexact rules hrules
  obtain ⟨fault, hfault⟩ := hfails.mpr (by decide)
  refine ⟨⟨rules, hrules, ?_, htotal hcounts⟩, fault, hfault, ?_⟩
  · rw [hfilters]
    decide +kernel
  · have hfirst : compile (threeFilters ++ threeFilters) = .error (.duplicateId 5) := by
      decide +kernel
    exact Except.error.inj (hfault.symm.trans hfirst)

/-- The local rules have an id of their own, which is that of a filter without an id. -/
theorem exists_ofRegistry {r : Registry} (hids : (r.filters.map (·.id)).Nodup)
    (hpositive : ∀ id ∈ r.filters.map (·.id), 0 < id) : ∃ rules, ofRegistry r = .ok rules := by
  have hloaded : (r.loaded.map (·.id)).Sublist (r.filters.map (·.id)) :=
    List.filter_sublist.map _
  refine exists_compile_iff.mpr (List.nodup_cons.mpr ⟨fun hmem => ?_, hids.sublist hloaded⟩)
  exact Int64.lt_irrefl (hpositive 0 (hloaded.subset hmem))

end RuleSet

namespace Service

theorem startEngine_ok {s : Service} (hids : (s.registry.filters.map (·.id)).Nodup)
    (hpositive : ∀ id ∈ s.registry.filters.map (·.id), 0 < id) : s.startEngine.2 = .ok () := by
  obtain ⟨rules, hrules⟩ := RuleSet.exists_ofRegistry hids hpositive
  simp only [startEngine, Engine.start, Engine.reconfigure, hrules]

end Service

end FilterLists
