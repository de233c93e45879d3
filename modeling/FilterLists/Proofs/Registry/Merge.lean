import FilterLists.Proofs.Registry.Update

/-! A merge as a change of each filter on its own. With distinct ids among the filters and among the
results, the order of the results does not matter: a filter takes over the one result with its id
and URL. -/
namespace FilterLists.Registry

/-- A live filter after one result: changed if the result is for it. -/
def takeOverOwn (fresh : Refreshed) (live : Filter) : Filter :=
  if sameSubscription live fresh.filter then takeOver fresh live else live

def renewedBy (fresh : Refreshed) (live : Filter) : Bool :=
  sameSubscription live fresh.filter && (fresh.changed && live.enabled)

/-- The result that is for a live filter. -/
def landing? (results : List Refreshed) (live : Filter) : Option Refreshed :=
  results.find? (fun fresh => sameSubscription live fresh.filter)

def landed (results : List Refreshed) (live : Filter) : Filter :=
  match landing? results live with
  | some fresh => takeOver fresh live
  | none => live

def renewed (results : List Refreshed) (live : Filter) : Bool :=
  (landing? results live).any (fun fresh => fresh.changed && live.enabled)

theorem sameSubscription_iff {f g : Filter} :
    sameSubscription f g = true ↔ f.id = g.id ∧ f.url = g.url := by
  simp [sameSubscription]

theorem sameSubscription_congr {f f' : Filter} (hid : f'.id = f.id) (hurl : f'.url = f.url)
    (g : Filter) : sameSubscription f' g = sameSubscription f g := by
  simp [sameSubscription, hid, hurl]

theorem landing?_congr {f f' : Filter} (hid : f'.id = f.id) (hurl : f'.url = f.url)
    (results : List Refreshed) : landing? results f' = landing? results f := by
  simp only [landing?, sameSubscription_congr hid hurl]

theorem landing?_eq_none {results : List Refreshed} {live : Filter}
    (h : live.id ∉ results.map (·.filter.id)) : landing? results live = none := by
  refine List.find?_eq_none.mpr (fun fresh hfresh hsame => h ?_)
  exact List.mem_map.mpr ⟨fresh, hfresh, (sameSubscription_iff.mp hsame).1.symm⟩

theorem of_landing?_eq_some {results : List Refreshed} {live : Filter} {fresh : Refreshed}
    (h : landing? results live = some fresh) :
    fresh ∈ results ∧ sameSubscription live fresh.filter = true := by
  unfold landing? at h
  have hsame := List.find?_some h
  exact ⟨List.mem_of_find?_eq_some h, hsame⟩

/-- The one result with the id and URL of a filter is the one that is for it. -/
theorem landing?_eq_some {results : List Refreshed} (hdistinct : (results.map (·.filter.id)).Nodup)
    {live : Filter} {fresh : Refreshed} (hmem : fresh ∈ results)
    (hsame : sameSubscription live fresh.filter = true) : landing? results live = some fresh := by
  induction results with
  | nil => cases hmem
  | cons other rest ih =>
    obtain ⟨hother, hrest⟩ := List.nodup_cons.mp hdistinct
    rcases List.mem_cons.mp hmem with rfl | hlater
    · simp [landing?, hsame]
    · have hne : sameSubscription live other.filter = false := by
        by_contra htrue
        have hid := (sameSubscription_iff.mp (by simpa using htrue)).1
        have hid' := (sameSubscription_iff.mp hsame).1
        exact hother (List.mem_map.mpr ⟨fresh, hlater, hid'.symm.trans hid⟩)
      have hlanding := ih hrest hlater
      simpa [landing?, hne] using hlanding

section Counting
variable {α : Type} {p q : α → Bool} {l : List α}

theorem countP_or_of_disjoint (h : ∀ a ∈ l, ¬ (p a = true ∧ q a = true)) :
    l.countP (fun a => p a || q a) = l.countP p + l.countP q := by
  induction l with
  | nil => rfl
  | cons a rest ih =>
    have ha := h a List.mem_cons_self
    have hrest := ih (fun b hb => h b (List.mem_cons_of_mem a hb))
    simp only [List.countP_cons, hrest]
    cases hp : p a <;> cases hq : q a <;> simp_all <;> omega

theorem countP_of_unique (h : l.Pairwise (fun a b => ¬ (p a = true ∧ p b = true))) :
    l.countP p = if l.any p then 1 else 0 := by
  induction l with
  | nil => rfl
  | cons a rest ih =>
    obtain ⟨ha, hrest⟩ := List.pairwise_cons.mp h
    rw [List.countP_cons, List.any_cons]
    by_cases hp : p a = true
    · have hnone : rest.countP p = 0 := List.countP_eq_zero.mpr (fun b hb hpb => ha b hb ⟨hp, hpb⟩)
      simp [hp, hnone]
    · simp [hp, ih hrest]

end Counting

/-- Two filters of a registry with distinct ids are not both the one that a result is for. -/
theorem pairwise_not_same {filters : List Filter} (hids : (filters.map (·.id)).Nodup)
    (g : Filter) : filters.Pairwise
      (fun a b => ¬ (sameSubscription a g = true ∧ sameSubscription b g = true)) := by
  have hpair : filters.Pairwise (fun a b => a.id ≠ b.id) := List.pairwise_map.mp hids
  refine hpair.imp (fun hne hboth => hne ?_)
  exact (sameSubscription_iff.mp hboth.1).1.trans (sameSubscription_iff.mp hboth.2).1.symm

theorem takeOverOwn_id (fresh : Refreshed) (f : Filter) : (takeOverOwn fresh f).id = f.id := by
  unfold takeOverOwn
  split
  · exact (takeOver_subscription fresh f).1
  · rfl

theorem landed_id (results : List Refreshed) (f : Filter) : (landed results f).id = f.id := by
  unfold landed
  split
  · exact (takeOver_subscription _ f).1
  · rfl

theorem mergeOne_snd {r : Registry} (hids : (r.filters.map (·.id)).Nodup) (fresh : Refreshed) :
    (r.mergeOne fresh).2 = r.filters.any (renewedBy fresh) := by
  unfold mergeOne
  cases hfind : r.filters.find? (sameSubscription · fresh.filter) with
  | none =>
    have hnone := List.find?_eq_none.mp hfind
    refine (List.any_eq_false.mpr (fun f hf hboth => hnone f hf ?_)).symm
    exact (Bool.and_eq_true_iff.mp hboth).1
  | some live =>
    have hmem := List.mem_of_find?_eq_some hfind
    have hsame := List.find?_some hfind
    simp only
    rw [Bool.eq_iff_iff, List.any_eq_true]
    constructor
    · intro hnew
      exact ⟨live, hmem, Bool.and_eq_true_iff.mpr ⟨hsame, hnew⟩⟩
    · rintro ⟨f, hf, hboth⟩
      obtain ⟨hf', hnew⟩ := Bool.and_eq_true_iff.mp hboth
      have hid : f.id = live.id :=
        (sameSubscription_iff.mp hf').1.trans (sameSubscription_iff.mp hsame).1.symm
      rw [List.inj_on_of_nodup_map hids hf hmem hid] at hnew
      exact hnew

theorem mergeOne_eq {r : Registry} (hids : (r.filters.map (·.id)).Nodup) (fresh : Refreshed) :
    r.mergeOne fresh =
      ({ r with filters := r.filters.map (takeOverOwn fresh) },
        r.filters.any (renewedBy fresh)) := by
  have hfilters := mergeOne_filters r fresh
  rw [modifyFirst_eq_map (pairwise_not_same hids fresh.filter)] at hfilters
  obtain ⟨hnext, hrules⟩ := mergeOne_frame r fresh
  refine Prod.ext ?_ (mergeOne_snd hids fresh)
  cases hmerged : (r.mergeOne fresh).1
  simp_all [takeOverOwn]

theorem landing?_takeOver {fresh : Refreshed} {rest : List Refreshed} {f : Filter}
    (hdistinct : fresh.filter.id ∉ rest.map (·.filter.id))
    (hsame : sameSubscription f fresh.filter = true) : landing? rest (takeOver fresh f) = none := by
  obtain ⟨hid, hurl, _⟩ := takeOver_subscription fresh f
  rw [landing?_congr hid hurl]
  exact landing?_eq_none ((sameSubscription_iff.mp hsame).1 ▸ hdistinct)

theorem landed_takeOverOwn {fresh : Refreshed} {rest : List Refreshed}
    (hdistinct : fresh.filter.id ∉ rest.map (·.filter.id)) (f : Filter) :
    landed rest (takeOverOwn fresh f) = landed (fresh :: rest) f := by
  unfold takeOverOwn
  by_cases hsame : sameSubscription f fresh.filter = true
  · have hnone := landing?_takeOver hdistinct hsame
    simp only [hsame, if_true, landed, hnone]
    simp [landing?, hsame]
  · simp [landed, landing?, hsame]

/-- A filter gets new content from the first of the results or from a later one, not from both. -/
theorem renewed_takeOverOwn {fresh : Refreshed} {rest : List Refreshed}
    (hdistinct : fresh.filter.id ∉ rest.map (·.filter.id)) (f : Filter) :
    renewed (fresh :: rest) f = (renewedBy fresh f || renewed rest (takeOverOwn fresh f)) ∧
      ¬ (renewedBy fresh f = true ∧ renewed rest (takeOverOwn fresh f) = true) := by
  unfold takeOverOwn renewedBy
  by_cases hsame : sameSubscription f fresh.filter = true
  · have hlater : renewed rest (takeOver fresh f) = false := by
      simp only [renewed, landing?_takeOver hdistinct hsame, Option.any_none]
    have hfirst : renewed (fresh :: rest) f = (fresh.changed && f.enabled) := by
      simp [renewed, landing?, hsame]
    simp [hsame, hlater, hfirst]
  · simp [renewed, landing?, hsame]

theorem countP_renewed {filters : List Filter} (hids : (filters.map (·.id)).Nodup)
    {fresh : Refreshed} {rest : List Refreshed}
    (hdistinct : fresh.filter.id ∉ rest.map (·.filter.id)) :
    filters.countP (renewed (fresh :: rest)) =
      (if filters.any (renewedBy fresh) then 1 else 0) +
        (filters.map (takeOverOwn fresh)).countP (renewed rest) := by
  have hone : filters.countP (renewedBy fresh) = if filters.any (renewedBy fresh) then 1 else 0 :=
    countP_of_unique ((pairwise_not_same hids fresh.filter).imp (fun hnot hboth =>
      hnot ⟨(Bool.and_eq_true_iff.mp hboth.1).1, (Bool.and_eq_true_iff.mp hboth.2).1⟩))
  have hboth : renewed (fresh :: rest) =
      fun f => renewedBy fresh f || (renewed rest ∘ takeOverOwn fresh) f :=
    funext (fun f => (renewed_takeOverOwn hdistinct f).1)
  rw [← hone, List.countP_map, hboth]
  exact countP_or_of_disjoint (fun f _ => (renewed_takeOverOwn hdistinct f).2)

/-- A merge changes each filter by the one result that is for it, and counts the filters that get
new content. -/
theorem mergeFrom_eq {r : Registry} {results : List Refreshed} (n : Nat)
    (hids : (r.filters.map (·.id)).Nodup) (hdistinct : (results.map (·.filter.id)).Nodup) :
    r.mergeFrom n results =
      ({ r with filters := r.filters.map (landed results) },
        n + r.filters.countP (renewed results)) := by
  induction results generalizing r n with
  | nil =>
    have hlanded : landed [] = id := rfl
    have hrenewed : r.filters.countP (renewed []) = 0 :=
      List.countP_eq_zero.mpr (fun f _ h => Bool.noConfusion h)
    rw [mergeFrom, hlanded, hrenewed, List.map_id, Nat.add_zero]
  | cons fresh rest ih =>
    obtain ⟨hfresh, hrest⟩ := List.nodup_cons.mp hdistinct
    have hids' : ((r.filters.map (takeOverOwn fresh)).map (·.id)).Nodup := by
      simpa only [List.map_map, Function.comp_def, takeOverOwn_id] using hids
    have hlanded : landed rest ∘ takeOverOwn fresh = landed (fresh :: rest) :=
      funext (landed_takeOverOwn hfresh)
    calc
      r.mergeFrom n (fresh :: rest) =
          mergeFrom { r with filters := r.filters.map (takeOverOwn fresh) }
            (if r.filters.any (renewedBy fresh) then n + 1 else n) rest := by
        rw [mergeFrom, mergeOne_eq hids fresh]
      _ = ({ r with filters := (r.filters.map (takeOverOwn fresh)).map (landed rest) },
            (if r.filters.any (renewedBy fresh) then n + 1 else n) +
              (r.filters.map (takeOverOwn fresh)).countP (renewed rest)) := ih _ hids' hrest
      _ = ({ r with filters := r.filters.map (landed (fresh :: rest)) },
            n + r.filters.countP (renewed (fresh :: rest))) := by
        rw [countP_renewed hids hfresh, List.map_map, hlanded]
        congr 1
        split <;> omega

end FilterLists.Registry
