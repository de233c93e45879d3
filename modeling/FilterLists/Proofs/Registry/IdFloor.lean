import FilterLists.Proofs.Permanence

/-! The counter of ids as a least bound. Raised above the ids of some filters, it is the least
number that is no lower than before and above each of the ids, as far as there is one. So neither
the order of the filters nor the way they are divided up matters, and what is given out afterwards
is above them. -/
namespace FilterLists

namespace FilterId

theorem toInt_next_eq_min (id : FilterId) :
    (next id).toInt = min (id.toInt + 1) Int64.maxValue.toInt := by
  have hupper := id.toInt_lt
  rw [Int64.toInt_maxValue]
  by_cases hlast : id = Int64.maxValue
  · rw [next, if_pos hlast, hlast, Int64.toInt_maxValue]
    rfl
  · have hnext := toInt_next hlast
    have hbound := (next id).toInt_lt
    omega

end FilterId

namespace Registry
variable {nextId bound : FilterId} {filters other : List Filter}

theorem raised_cons (nextId : FilterId) (f : Filter) (rest : List Filter) :
    raised nextId (f :: rest) = raised (raised nextId [f]) rest :=
  rfl

theorem raised_append (nextId : FilterId) (filters more : List Filter) :
    raised nextId (filters ++ more) = raised (raised nextId filters) more :=
  List.foldl_append

/-- The counter stays, or some filter has raised it. -/
theorem raised_attained (nextId : FilterId) (filters : List Filter) :
    raised nextId filters = nextId ∨
      ∃ f ∈ filters, raised nextId filters = FilterId.next f.id := by
  induction filters generalizing nextId with
  | nil => exact .inl rfl
  | cons f rest ih =>
    rw [raised_cons]
    rcases ih (raised nextId [f]) with hsame | ⟨g, hg, hraised⟩
    · rw [hsame]
      simp only [raised, List.foldl_cons, List.foldl_nil]
      split
      · exact .inr ⟨f, List.mem_cons_self, rfl⟩
      · exact .inl rfl
    · exact .inr ⟨g, List.mem_cons_of_mem f hg, hraised⟩

/-- It is no higher than it has to be. -/
theorem raised_le_iff :
    raised nextId filters ≤ bound ↔
      nextId ≤ bound ∧ ∀ f ∈ filters, FilterId.next f.id ≤ bound := by
  constructor
  · intro h
    exact ⟨Int64.le_trans (le_raised nextId filters) h,
      fun f hf => Int64.le_trans (next_le_raised f hf) h⟩
  · rintro ⟨hnext, hall⟩
    rcases raised_attained nextId filters with hsame | ⟨f, hf, hraised⟩
    · rw [hsame]
      exact hnext
    · rw [hraised]
      exact hall f hf

theorem raised_congr (h : ∀ f, f ∈ filters ↔ f ∈ other) (nextId : FilterId) :
    raised nextId filters = raised nextId other := by
  have hsame : ∀ bound, raised nextId filters ≤ bound ↔ raised nextId other ≤ bound := by
    intro bound
    simp only [raised_le_iff, h]
  exact Int64.le_antisymm ((hsame _).mpr (Int64.le_refl _)) ((hsame _).mp (Int64.le_refl _))

theorem max?_raised (nextId : FilterId) (filters : List Filter) :
    (nextId.toInt :: filters.map (fun f => min (f.id.toInt + 1) Int64.maxValue.toInt)).max? =
      some (raised nextId filters).toInt := by
  simp only [← FilterId.toInt_next_eq_min]
  rw [List.max?_eq_some_iff]
  constructor
  · rcases raised_attained nextId filters with hsame | ⟨f, hf, hraised⟩
    · rw [hsame]
      exact List.mem_cons_self
    · rw [hraised]
      exact List.mem_cons_of_mem _ (List.mem_map_of_mem hf)
  · refine List.forall_mem_cons.mpr ⟨Int64.le_iff_toInt_le.mp (le_raised nextId filters), ?_⟩
    intro n hn
    obtain ⟨f, hf, rfl⟩ := List.mem_map.mp hn
    exact Int64.le_iff_toInt_le.mp (next_le_raised f hf)

/-- Which filters raise the counter decides, not their order nor how often each occurs. -/
theorem advanceIdFloor_congr (h : ∀ f, f ∈ filters ↔ f ∈ other) (r : Registry) :
    r.advanceIdFloor filters = r.advanceIdFloor other :=
  congrArg (fun nextId => { r with nextId }) (raised_congr h r.nextId)

theorem advanceIdFloor_append (r : Registry) (filters more : List Filter) :
    r.advanceIdFloor (filters ++ more) = (r.advanceIdFloor filters).advanceIdFloor more :=
  congrArg (fun nextId => { r with nextId }) (raised_append r.nextId filters more)

/-- Also a counter that has come to its end gives no id below it. -/
theorem le_of_mem_given {id : FilterId} (hid : id ∈ FilterId.given (filters.map (·.id))
      ((assignMissing nextId filters).1.map (·.id))) : nextId ≤ id := by
  induction filters generalizing nextId with
  | nil => cases hid
  | cons f rest ih =>
    unfold assignMissing at hid
    by_cases hzero : f.id = 0
    · simp only [hzero, if_true, List.map_cons, FilterId.given] at hid
      rcases List.mem_cons.mp hid with rfl | hlater
      · exact Int64.le_refl _
      · exact Int64.le_trans (FilterId.le_next nextId) (ih hlater)
    · simp only [hzero, if_false, List.map_cons, FilterId.given] at hid
      exact ih hid

end Registry

namespace LiveService
variable {l : LiveService}

theorem nextId_le_of_mem_handsOut {e : ServiceEvent} {id : FilterId} (hid : id ∈ l.handsOut e) :
    l.service.registry.nextId ≤ id := by
  cases e with
  | loadsAll faults =>
    have hgiven : id ∈ FilterId.given (l.service.registry.filters.map (·.id))
        ((l.step (.loadsAll faults)).service.registry.filters.map (·.id)) := hid
    rw [loadsAll_ids] at hgiven
    exact Registry.le_of_mem_given hgiven
  | addProceeds place =>
    simp only [handsOut] at hid
    split at hid
    · exact Int64.le_of_eq (List.mem_singleton.mp hid).symm
    · cases hid
  | assignsId => exact Int64.le_of_eq (List.mem_singleton.mp hid).symm
  | cycleBegins | downloadStarts | downloadEnds | persists | cycleEnds | addBegins | removeBegins
  | removeProceeds | switches | deduplicates | raisesIdFloor | setsUserRules | fileVanishes =>
    cases hid

theorem nextId_le_of_mem_handedOut {events : List ServiceEvent} {id : FilterId}
    (hid : id ∈ l.handedOut events) : l.service.registry.nextId ≤ id := by
  induction events generalizing l with
  | nil => cases hid
  | cons e rest ih =>
    rcases List.mem_append.mp hid with hnow | hlater
    · exact nextId_le_of_mem_handsOut hnow
    · exact Int64.le_trans (l.nextId_le_step e) (ih hlater)

/-- Raising the counter above the ids of some filters sets it to the greatest of what it was and the
number after each id, the last 64-bit number standing for the one after it. It does not fall, and
neither the order of the filters nor raising it in two parts makes a difference. Unless some filter
has the last id, all ids that are given out later are above those of the filters, whatever happens
in between. -/
theorem idFloor_exact (l : LiveService) (filters : List Filter) :
    let r := l.service.registry
    let floor := (r.advanceIdFloor filters).nextId
    r.advanceIdFloor filters = { r with nextId := floor } ∧
    (r.nextId.toInt :: filters.map (fun f => min (f.id.toInt + 1) Int64.maxValue.toInt)).max? =
      some floor.toInt ∧
    r.nextId ≤ floor ∧
    (∀ other, filters.Perm other → r.advanceIdFloor other = r.advanceIdFloor filters) ∧
    (∀ more, (r.advanceIdFloor filters).advanceIdFloor more = r.advanceIdFloor (filters ++ more) ∧
      (r.advanceIdFloor filters).advanceIdFloor more = r.advanceIdFloor (more ++ filters)) ∧
    ((∀ f ∈ filters, f.id ≠ Int64.maxValue) → ∀ events,
      ∀ id ∈ (l.step (.raisesIdFloor filters)).handedOut events, ∀ f ∈ filters, f.id < id) := by
  intro r floor
  refine ⟨rfl, Registry.max?_raised r.nextId filters, Registry.le_raised r.nextId filters,
    fun other hperm => Registry.advanceIdFloor_congr (fun f => hperm.mem_iff.symm) r,
    fun more => ⟨(r.advanceIdFloor_append filters more).symm, ?_⟩,
    fun hbelow events id hid f hf => ?_⟩
  · rw [← Registry.advanceIdFloor_append]
    exact Registry.advanceIdFloor_congr (fun f => List.perm_append_comm.mem_iff) r
  · have hlast : f.id < Int64.maxValue :=
      Int64.lt_of_le_of_ne (Int64.le_maxValue f.id) (hbelow f hf)
    have habove : f.id < floor := Registry.lt_raised_of_lt hf hlast
    have hcounter : (l.step (.raisesIdFloor filters)).service.registry.nextId = floor := rfl
    have hle := nextId_le_of_mem_handedOut hid
    rw [hcounter] at hle
    exact Int64.lt_of_lt_of_le habove hle

/-- After the last id there is none, and the counter stays at it. -/
example : (Registry.advanceIdFloor { nextId := 5 } [{ id := Int64.maxValue, url := "http://a" },
    { id := -3, url := "http://b" }]).nextId = Int64.maxValue := by decide

end LiveService

end FilterLists
