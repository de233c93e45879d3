import FilterLists.Proofs.Registry.Update

/-! The counter of ids. It never falls, and below the last 64-bit number it rises with every id
that it gives. Filters without an id then get ids that are new and distinct. -/
namespace FilterLists

namespace FilterId

/-- The ids that have come in the place of none. -/
def given : List FilterId → List FilterId → List FilterId
  | before :: rest, after :: others => if before = 0 then after :: given rest others
    else given rest others
  | _, _ => []

theorem toInt_next {id : FilterId} (h : id ≠ Int64.maxValue) : (next id).toInt = id.toInt + 1 := by
  have hne : id.toInt ≠ Int64.maxValue.toInt := fun heq => h (Int64.toInt_inj.mp heq)
  rw [Int64.toInt_maxValue] at hne
  have hupper := id.toInt_lt
  have hlower := id.le_toInt
  simp only [next, h, if_false, Int64.toInt_add]
  rw [show (1 : Int64).toInt = 1 from rfl]
  exact Int.bmod_eq_of_le (by omega) (by omega)

theorem le_next (id : FilterId) : id ≤ next id := by
  by_cases h : id = Int64.maxValue
  · simp [next, h]
  · have hnext := toInt_next h
    rw [Int64.le_iff_toInt_le]
    omega

theorem lt_next {id : FilterId} (h : id < Int64.maxValue) : id < next id := by
  have hne : id ≠ Int64.maxValue := fun heq => Int64.lt_irrefl (heq ▸ h)
  have hnext := toInt_next hne
  rw [Int64.lt_iff_toInt_lt]
  omega

theorem next_le_of_lt {id other : FilterId} (h : id < other) : next id ≤ other := by
  have hne : id ≠ Int64.maxValue := by
    rintro rfl
    exact Int64.lt_irrefl (Int64.lt_of_lt_of_le h (Int64.le_maxValue other))
  have hnext := toInt_next hne
  rw [Int64.lt_iff_toInt_lt] at h
  rw [Int64.le_iff_toInt_le]
  omega

theorem one_le {id : FilterId} (hnonneg : 0 ≤ id) (hne : id ≠ 0) : 1 ≤ id := by
  have hzero : id.toInt ≠ 0 := fun heq => hne (Int64.toInt_inj.mp (heq.trans Int64.toInt_zero.symm))
  rw [Int64.le_iff_toInt_le, Int64.toInt_zero] at hnonneg
  rw [Int64.le_iff_toInt_le, show (1 : FilterId).toInt = 1 from rfl]
  omega

end FilterId

namespace Registry

theorem toInt_nextId_empty {now : Instant} (h : now.seconds ≤ Int64.maxValue.toInt) :
    (Registry.empty now).nextId.toInt = max now.seconds 1 := by
  rw [Int64.toInt_maxValue] at h
  exact Int64.toInt_ofInt_of_le (by omega) (by omega)

theorem pos_nextId_empty {now : Instant} (h : now.seconds ≤ Int64.maxValue.toInt) :
    0 < (Registry.empty now).nextId := by
  rw [Int64.lt_iff_toInt_lt, toInt_nextId_empty h, Int64.toInt_zero]
  omega

theorem le_raised (nextId : FilterId) (filters : List Filter) : nextId ≤ raised nextId filters := by
  unfold raised
  induction filters generalizing nextId with
  | nil => exact Int64.le_refl nextId
  | cons f rest ih =>
    rw [List.foldl_cons]
    refine Int64.le_trans ?_ (ih _)
    split_ifs with hle
    · exact Int64.le_trans hle (FilterId.le_next f.id)
    · exact Int64.le_refl nextId

theorem next_le_raised {nextId : FilterId} {filters : List Filter} :
    ∀ f ∈ filters, FilterId.next f.id ≤ raised nextId filters := by
  unfold raised
  induction filters generalizing nextId with
  | nil => simp
  | cons f rest ih =>
    rw [List.foldl_cons]
    refine List.forall_mem_cons.mpr ⟨Int64.le_trans ?_ (le_raised _ rest), ih⟩
    split_ifs with hle
    · exact Int64.le_refl _
    · exact FilterId.next_le_of_lt (Int64.not_le.mp hle)

/-- The counter is above all ids but the last one. -/
theorem lt_raised_of_lt {nextId : FilterId} {filters : List Filter} {f : Filter} (hf : f ∈ filters)
    (h : f.id < Int64.maxValue) : f.id < raised nextId filters :=
  Int64.lt_of_lt_of_le (FilterId.lt_next h) (next_le_raised f hf)

theorem lt_raised {nextId : FilterId} {filters : List Filter}
    (h : raised nextId filters < Int64.maxValue) : ∀ f ∈ filters, f.id < raised nextId filters :=
  fun f hf => lt_raised_of_lt hf (Int64.lt_of_le_of_lt (FilterId.le_next f.id)
    (Int64.lt_of_le_of_lt (next_le_raised f hf) h))

theorem le_assignMissing (nextId : FilterId) (filters : List Filter) :
    nextId ≤ (assignMissing nextId filters).2 := by
  induction filters generalizing nextId with
  | nil => exact Int64.le_refl nextId
  | cons f rest ih =>
    unfold assignMissing
    split
    · exact Int64.le_trans (FilterId.le_next nextId) (ih _)
    · exact ih nextId

theorem assignMissing_of_ne_zero {nextId : FilterId} {filters : List Filter}
    (h : ∀ f ∈ filters, f.id ≠ 0) : assignMissing nextId filters = (filters, nextId) := by
  induction filters with
  | nil => rfl
  | cons f rest ih =>
    obtain ⟨hf, hrest⟩ := List.forall_mem_cons.mp h
    simp only [assignMissing, hf, if_false, ih hrest]

theorem loadAll_of_ne_zero {r : Registry} (h : ∀ f ∈ r.filters, f.id ≠ 0) (load : Loader) :
    r.loadAll load = { r with filters := r.filters.map (loadEnabled load) } := by
  simp only [loadAll, assignMissing_of_ne_zero h]

section AssignMissing
variable {nextId : FilterId} {filters : List Filter}

theorem map_url_assignMissing (nextId : FilterId) (filters : List Filter) :
    (assignMissing nextId filters).1.map (·.url) = filters.map (·.url) := by
  induction filters generalizing nextId with
  | nil => rfl
  | cons f rest ih =>
    unfold assignMissing
    split
    · simp [ih (FilterId.next nextId)]
    · simp [ih nextId]

/-- A filter has kept its id or has got one from the counter on. -/
theorem mem_assignMissing {g : Filter} (hg : g ∈ (assignMissing nextId filters).1) :
    (g ∈ filters ∧ g.id ≠ 0) ∨ (nextId ≤ g.id ∧ ∃ f ∈ filters, f.id = 0) := by
  induction filters generalizing nextId with
  | nil => cases hg
  | cons f rest ih =>
    unfold assignMissing at hg
    split_ifs at hg with hid
    · rcases List.mem_cons.mp hg with rfl | hrest
      · exact .inr ⟨Int64.le_refl nextId, f, List.mem_cons_self, hid⟩
      · rcases ih hrest with ⟨hold, hne⟩ | ⟨hle, _⟩
        · exact .inl ⟨List.mem_cons_of_mem f hold, hne⟩
        · exact .inr ⟨Int64.le_trans (FilterId.le_next nextId) hle, f, List.mem_cons_self, hid⟩
    · rcases List.mem_cons.mp hg with rfl | hrest
      · exact .inl ⟨List.mem_cons_self, hid⟩
      · rcases ih hrest with ⟨hold, hne⟩ | ⟨hle, e, he, hzero⟩
        · exact .inl ⟨List.mem_cons_of_mem f hold, hne⟩
        · exact .inr ⟨hle, e, List.mem_cons_of_mem f he, hzero⟩

theorem lt_assignMissing (hbelow : ∀ f ∈ filters, f.id < nextId)
    (h : (assignMissing nextId filters).2 < Int64.maxValue) :
    ∀ g ∈ (assignMissing nextId filters).1, g.id < (assignMissing nextId filters).2 := by
  induction filters generalizing nextId with
  | nil => simp [assignMissing]
  | cons f rest ih =>
    obtain ⟨hf, hrest⟩ := List.forall_mem_cons.mp hbelow
    have hle := FilterId.le_next nextId
    unfold assignMissing at h ⊢
    split_ifs at h with hid
    · simp only [hid, if_true]
      have hlater := le_assignMissing (FilterId.next nextId) rest
      have hlt := FilterId.lt_next (Int64.lt_of_le_of_lt (Int64.le_trans hle hlater) h)
      refine List.forall_mem_cons.mpr ⟨Int64.lt_of_lt_of_le hlt hlater, ih ?_ h⟩
      exact fun g hg => Int64.lt_of_lt_of_le (hrest g hg) hle
    · simp only [hid, if_false]
      refine List.forall_mem_cons.mpr ⟨?_, ih hrest h⟩
      exact Int64.lt_of_lt_of_le hf (le_assignMissing nextId rest)

/-- There are as many ids left as there are filters without one. -/
def HasRoom (nextId : FilterId) (filters : List Filter) : Prop :=
  nextId.toInt + filters.countP (fun f => f.id = 0) ≤ Int64.maxValue.toInt + 1

instance (nextId : FilterId) (filters : List Filter) : Decidable (HasRoom nextId filters) :=
  inferInstanceAs (Decidable (_ ≤ _))

theorem HasRoom.tail {f : Filter} (h : HasRoom nextId (f :: filters)) :
    HasRoom (if f.id = 0 then FilterId.next nextId else nextId) filters := by
  unfold HasRoom at h ⊢
  rw [List.countP_cons] at h
  rw [Int64.toInt_maxValue] at h ⊢
  by_cases hzero : f.id = 0
  · simp only [hzero, decide_true, if_true] at h ⊢
    by_cases hmax : nextId = Int64.maxValue
    · have hnone : filters.countP (fun f => f.id = 0) = 0 := by
        rw [hmax, Int64.toInt_maxValue] at h
        omega
      have hlt := Int64.toInt_lt (FilterId.next nextId)
      rw [hnone]
      omega
    · rw [FilterId.toInt_next hmax]
      omega
  · simpa [hzero] using h

/-- With room, all filters have distinct ids in the end if those that had ids had distinct ones. -/
theorem nodup_assignMissing (hdistinct : ((filters.map (·.id)).filter (· ≠ 0)).Nodup)
    (hbelow : ∀ f ∈ filters, f.id < nextId) (hroom : HasRoom nextId filters) :
    ((assignMissing nextId filters).1.map (·.id)).Nodup := by
  induction filters generalizing nextId with
  | nil => simp [assignMissing]
  | cons f rest ih =>
    obtain ⟨hf, hrest⟩ := List.forall_mem_cons.mp hbelow
    have htail := hroom.tail
    unfold assignMissing
    by_cases hzero : f.id = 0
    · simp only [hzero, if_true, List.map_cons] at htail ⊢
      have hlater : ∀ g ∈ rest, g.id < FilterId.next nextId := fun g hg =>
        Int64.lt_of_lt_of_le (hrest g hg) (FilterId.le_next nextId)
      refine List.nodup_cons.mpr ⟨fun hmem => ?_, ih (by simpa [hzero] using hdistinct) hlater htail⟩
      obtain ⟨g, hg, hid⟩ := List.mem_map.mp hmem
      rcases mem_assignMissing hg with ⟨hold, _⟩ | ⟨hle, e, he, hnone⟩
      · exact Int64.lt_irrefl (hid ▸ hrest g hold)
      · -- A second filter without an id leaves the counter below the last id.
        have hmore : 0 < rest.countP (fun f => f.id = 0) :=
          List.countP_pos_iff.mpr ⟨e, he, decide_eq_true hnone⟩
        have hlt : nextId < Int64.maxValue := by
          unfold HasRoom at hroom
          rw [List.countP_cons, hzero] at hroom
          rw [Int64.lt_iff_toInt_lt]
          simp only [decide_true, if_true] at hroom
          omega
        exact Int64.lt_irrefl (Int64.lt_of_lt_of_le (FilterId.lt_next hlt) (hid ▸ hle))
    · simp only [hzero, if_false, List.map_cons] at htail ⊢
      have hnodup : (f.id :: (rest.map (·.id)).filter (· ≠ 0)).Nodup := by
        simpa [hzero] using hdistinct
      obtain ⟨hfirst, hothers⟩ := List.nodup_cons.mp hnodup
      refine List.nodup_cons.mpr ⟨fun hmem => ?_, ih hothers hrest htail⟩
      obtain ⟨g, hg, hid⟩ := List.mem_map.mp hmem
      rcases mem_assignMissing hg with ⟨hold, hne⟩ | ⟨hle, _⟩
      · refine hfirst (hid ▸ List.mem_filter.mpr ⟨List.mem_map_of_mem hold, ?_⟩)
        simpa using hne
      · exact Int64.lt_irrefl (Int64.lt_of_lt_of_le hf (hid ▸ hle))

theorem sublist_ids_assignMissing (nextId : FilterId) (filters : List Filter) :
    ((filters.map (·.id)).filter (· ≠ 0)).Sublist ((assignMissing nextId filters).1.map (·.id)) := by
  induction filters generalizing nextId with
  | nil => simp
  | cons f rest ih =>
    unfold assignMissing
    by_cases hzero : f.id = 0
    · simpa [hzero] using (ih (FilterId.next nextId)).cons nextId
    · simpa [hzero] using (ih nextId).cons_cons f.id

theorem mem_ids_assignMissing {f : Filter} (hf : f ∈ filters) (hzero : f.id = 0) :
    nextId ∈ (assignMissing nextId filters).1.map (·.id) := by
  induction filters with
  | nil => cases hf
  | cons first rest ih =>
    unfold assignMissing
    by_cases hfirst : first.id = 0
    · simp [hfirst]
    · rcases List.mem_cons.mp hf with rfl | hrest
      · exact absurd hzero hfirst
      · simpa [hfirst] using Or.inr (List.mem_map.mp (ih hrest))

/-- Without room the last id is given twice. -/
theorem hasRoom_of_nodup (h : ((assignMissing nextId filters).1.map (·.id)).Nodup) :
    HasRoom nextId filters := by
  have hupper := Int64.toInt_lt nextId
  unfold HasRoom
  rw [Int64.toInt_maxValue]
  induction filters generalizing nextId with
  | nil =>
    rw [List.countP_nil]
    omega
  | cons f rest ih =>
    unfold assignMissing at h
    rw [List.countP_cons]
    by_cases hzero : f.id = 0
    · simp only [hzero, if_true, List.map_cons, decide_true] at h ⊢
      obtain ⟨hfirst, hrest⟩ := List.nodup_cons.mp h
      by_cases hmax : nextId = Int64.maxValue
      · have hnone : rest.countP (fun f => f.id = 0) = 0 := by
          refine List.countP_eq_zero.mpr (fun g hg hgzero => hfirst ?_)
          have hnext : FilterId.next nextId = nextId := by simp [FilterId.next, hmax]
          rw [hnext]
          exact mem_ids_assignMissing hg (of_decide_eq_true hgzero)
        rw [hnone]
        omega
      · have hlater := ih hrest (Int64.toInt_lt _)
        rw [FilterId.toInt_next hmax] at hlater
        omega
    · simp only [hzero, if_false, List.map_cons, decide_false] at h ⊢
      exact ih (List.nodup_cons.mp h).2 hupper

/-- All filters have distinct ids in the end just if those that had ids had distinct ones and there
was room for the others. -/
theorem nodup_assignMissing_iff (hbelow : ∀ f ∈ filters, f.id < nextId) :
    ((assignMissing nextId filters).1.map (·.id)).Nodup ↔
      ((filters.map (·.id)).filter (· ≠ 0)).Nodup ∧ HasRoom nextId filters :=
  ⟨fun h => ⟨h.sublist (sublist_ids_assignMissing nextId filters), hasRoom_of_nodup h⟩,
    fun ⟨hdistinct, hroom⟩ => nodup_assignMissing hdistinct hbelow hroom⟩

/-- The counter rises by one for every filter without an id, up to the last id. -/
theorem toInt_assignMissing (nextId : FilterId) (filters : List Filter) :
    (assignMissing nextId filters).2.toInt =
      min Int64.maxValue.toInt (nextId.toInt + filters.countP (fun f => f.id = 0)) := by
  have hupper := Int64.toInt_lt nextId
  rw [Int64.toInt_maxValue]
  induction filters generalizing nextId with
  | nil =>
    simp only [assignMissing, List.countP_nil]
    omega
  | cons f rest ih =>
    rw [List.countP_cons]
    unfold assignMissing
    by_cases hzero : f.id = 0
    · simp only [hzero, if_true, decide_true]
      rw [ih _ (Int64.toInt_lt _)]
      by_cases hmax : nextId = Int64.maxValue
      · have hsame : FilterId.next nextId = nextId := by simp [FilterId.next, hmax]
        rw [hsame, hmax, Int64.toInt_maxValue]
        omega
      · rw [FilterId.toInt_next hmax]
        omega
    · simpa [hzero] using ih nextId hupper

/-- A counter that stays below the last id has had room. -/
theorem hasRoom_of_lt (h : (assignMissing nextId filters).2 < Int64.maxValue) :
    HasRoom nextId filters := by
  have hcount := toInt_assignMissing nextId filters
  rw [Int64.lt_iff_toInt_lt] at h
  unfold HasRoom
  omega

/-- Where the last id is not needed, the counter has passed every id that it gives. -/
theorem mem_assignMissing_of_spared
    (hspared : nextId.toInt + filters.countP (fun f => f.id = 0) ≤ Int64.maxValue.toInt)
    {g : Filter} (hg : g ∈ (assignMissing nextId filters).1) :
    (g ∈ filters ∧ g.id ≠ 0) ∨ g.id < (assignMissing nextId filters).2 := by
  induction filters generalizing nextId with
  | nil => cases hg
  | cons f rest ih =>
    rw [List.countP_cons] at hspared
    unfold assignMissing at hg ⊢
    by_cases hzero : f.id = 0
    · simp only [hzero, if_true, decide_true] at hg hspared ⊢
      have hlt : nextId < Int64.maxValue := by
        rw [Int64.lt_iff_toInt_lt]
        omega
      have hnext := FilterId.toInt_next (Int64.ne_of_lt hlt)
      rcases List.mem_cons.mp hg with rfl | hrest
      · exact .inr (Int64.lt_of_lt_of_le (FilterId.lt_next hlt) (le_assignMissing _ rest))
      · exact (ih (by omega) hrest).imp_left (And.imp_left (List.mem_cons_of_mem f))
    · simp only [hzero, if_false, decide_false] at hg hspared ⊢
      rcases List.mem_cons.mp hg with rfl | hrest
      · exact .inl ⟨List.mem_cons_self, hzero⟩
      · exact (ih (by simpa using hspared) hrest).imp_left (And.imp_left (List.mem_cons_of_mem f))

/-- The ids that are given rise, from the counter on. -/
theorem given_assignMissing (h : (assignMissing nextId filters).2 < Int64.maxValue) :
    let ids := FilterId.given (filters.map (·.id)) ((assignMissing nextId filters).1.map (·.id))
    ids.Pairwise (· < ·) ∧ ∀ id ∈ ids, nextId ≤ id ∧ id < (assignMissing nextId filters).2 := by
  intro ids
  induction filters generalizing nextId with
  | nil => simp [ids, FilterId.given]
  | cons f rest ih =>
    have hlater := le_assignMissing (FilterId.next nextId) rest
    simp only [ids]
    unfold assignMissing at h ⊢
    by_cases hzero : f.id = 0
    · simp only [hzero, if_true, List.map_cons, FilterId.given] at h ⊢
      obtain ⟨hrises, hbounds⟩ := ih h
      have hlt : nextId < FilterId.next nextId := FilterId.lt_next
        (Int64.lt_of_le_of_lt (Int64.le_trans (FilterId.le_next nextId) hlater) h)
      refine ⟨List.pairwise_cons.mpr ⟨fun id hid => ?_, hrises⟩, List.forall_mem_cons.mpr ⟨?_, ?_⟩⟩
      · exact Int64.lt_of_lt_of_le hlt (hbounds id hid).1
      · exact ⟨Int64.le_refl nextId, Int64.lt_of_lt_of_le hlt hlater⟩
      · exact fun id hid =>
          ⟨Int64.le_trans (FilterId.le_next nextId) (hbounds id hid).1, (hbounds id hid).2⟩
    · simp only [hzero, if_false, List.map_cons, FilterId.given] at h ⊢
      exact ih h

end AssignMissing

end Registry

end FilterLists
