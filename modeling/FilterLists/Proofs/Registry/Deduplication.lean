import FilterLists.Proofs.Registry.Update

/-! Deduplication against a reference that looks at the places of the filters. A filter stays if its
URL occurs at no earlier place, so a search by URL, which stops at the first place, finds what it
found before. -/
namespace FilterLists.Registry
variable {r : Registry} {filters : List Filter} {seen : List String} {url : String} {f : Filter}

def isNewAt (filters : List Filter) (url : String) (place : Nat) : Bool :=
  (filters.take place).all (fun earlier => earlier.url ≠ url)

/-- The filters whose URL does not occur earlier in the list, in their order. -/
def firstOccurrences (filters : List Filter) : List Filter :=
  (filters.zipIdx.filter (fun (f, place) => isNewAt filters f.url place)).map Prod.fst

def repetitions (filters : List Filter) : Nat :=
  filters.zipIdx.countP (fun (f, place) => !isNewAt filters f.url place)

/-- The URLs that were seen are those of the filters that were passed. -/
theorem firstByUrl_eq_filter (before : List Filter)
    (hseen : ∀ url, url ∈ seen ↔ url ∈ before.map (·.url)) :
    firstByUrl seen filters =
      ((filters.zipIdx before.length).filter
        (fun (f, place) => isNewAt (before ++ filters) f.url place)).map Prod.fst := by
  induction filters generalizing before seen with
  | nil => rfl
  | cons f rest ih =>
    have hnew : isNewAt (before ++ f :: rest) f.url before.length = true ↔ f.url ∉ seen := by
      rw [hseen, isNewAt, List.take_left]
      simp
    have hpassed : before.length + 1 = (before ++ [f]).length := by simp
    rw [List.zipIdx_cons, firstByUrl, hpassed, List.append_cons]
    by_cases hf : f.url ∈ seen
    · rw [if_pos hf, List.filter_cons_of_neg (by simpa [hf] using hnew)]
      refine ih (before ++ [f]) fun url => ?_
      rw [hseen, List.map_append, List.mem_append, List.map_singleton, List.mem_singleton]
      exact ⟨.inl, fun h => h.elim id fun heq => heq ▸ (hseen f.url).mp hf⟩
    · rw [if_neg hf, List.filter_cons_of_pos (by simpa [hf] using hnew), List.map_cons]
      refine congrArg (f :: ·) (ih (before ++ [f]) fun url => ?_)
      rw [List.mem_cons, hseen, List.map_append, List.mem_append, List.map_singleton,
        List.mem_singleton, or_comm]

theorem firstByUrl_eq_firstOccurrences (filters : List Filter) :
    firstByUrl [] filters = firstOccurrences filters :=
  firstByUrl_eq_filter [] (by simp)

theorem length_firstOccurrences (filters : List Filter) :
    (firstOccurrences filters).length + repetitions filters = filters.length := by
  have hcount := List.length_eq_countP_add_countP
    (fun (f, place) => isNewAt filters f.url place) (l := filters.zipIdx)
  rw [List.length_zipIdx] at hcount
  rw [firstOccurrences, List.length_map, ← List.countP_eq_length_filter, repetitions, hcount]
  simp

theorem nodup_firstByUrl (seen : List String) (filters : List Filter) :
    ((firstByUrl seen filters).map (·.url)).Nodup ∧
      ∀ f ∈ firstByUrl seen filters, f.url ∉ seen := by
  induction filters generalizing seen with
  | nil => simp [firstByUrl]
  | cons f rest ih =>
    unfold firstByUrl
    split_ifs with hseen
    · exact ih seen
    · obtain ⟨hnodup, hnew⟩ := ih (f.url :: seen)
      refine ⟨List.nodup_cons.mpr ⟨fun hmem => ?_, hnodup⟩, List.forall_mem_cons.mpr ⟨hseen, ?_⟩⟩
      · obtain ⟨g, hg, hurl⟩ := List.mem_map.mp hmem
        exact hnew g hg (hurl ▸ List.mem_cons_self)
      · exact fun g hg hold => hnew g hg (List.mem_cons_of_mem f.url hold)

theorem firstByUrl_of_nodup (h : (filters.map (·.url)).Nodup)
    (hnew : ∀ f ∈ filters, f.url ∉ seen) : firstByUrl seen filters = filters := by
  induction filters generalizing seen with
  | nil => rfl
  | cons f rest ih =>
    obtain ⟨hfirst, hrest⟩ := List.nodup_cons.mp h
    obtain ⟨hf, hothers⟩ := List.forall_mem_cons.mp hnew
    rw [firstByUrl, if_neg hf, ih hrest]
    intro g hg hmem
    rcases List.mem_cons.mp hmem with hsame | hseen
    · exact hfirst (List.mem_map.mpr ⟨g, hg, hsame⟩)
    · exact hothers g hg hseen

/-- A URL that was not seen is found at the same filter. -/
theorem find?_firstByUrl (h : url ∉ seen) :
    (firstByUrl seen filters).find? (fun f => f.url = url) =
      filters.find? (fun f => f.url = url) := by
  induction filters generalizing seen with
  | nil => rfl
  | cons f rest ih =>
    unfold firstByUrl
    split_ifs with hf
    · have hne : f.url ≠ url := fun heq => h (heq ▸ hf)
      rw [ih h, List.find?_cons_of_neg (by simpa using hne)]
    · by_cases hurl : f.url = url
      · simp only [List.find?_cons, decide_eq_true hurl]
      · have hrest : url ∉ f.url :: seen := by
          rw [List.mem_cons, not_or]
          exact ⟨Ne.symm hurl, h⟩
        simp only [List.find?_cons, decide_eq_false hurl, ih hrest]

theorem deduplicate_deduplicate (r : Registry) :
    r.deduplicate.1.deduplicate = (r.deduplicate.1, 0) := by
  have hkept : firstByUrl [] r.deduplicate.1.filters = r.deduplicate.1.filters :=
    firstByUrl_of_nodup (nodup_firstByUrl [] r.filters).1 fun _ _ => List.not_mem_nil
  rw [deduplicate, hkept, Nat.sub_self]

theorem get?_deduplicate (r : Registry) (url : String) : r.deduplicate.1.get? url = r.get? url :=
  find?_firstByUrl List.not_mem_nil

theorem contains_iff : r.contains url = true ↔ url ∈ r.filters.map (·.url) := by
  simp [contains]

theorem contains_eq_isSome (r : Registry) (url : String) :
    r.contains url = (r.get? url).isSome := by
  rw [contains, get?, Bool.eq_iff_iff, List.any_eq_true, List.find?_isSome]

/-- A search by URL ends at this filter, whether it is to return, to switch or to remove it. -/
structure Finds (r : Registry) (url : String) (f : Filter) : Prop where
  got : r.get? url = some f
  listed : r.contains url = true
  reached : ∃ before after, r.filters = before ++ f :: after ∧
    (∀ load enabled, r.setEnabled load url enabled =
      ({ r with filters := before ++ switch load enabled f :: after }, true)) ∧
    r.remove url = ({ r with filters := before ++ after }, some f)

structure FindsNothing (r : Registry) (url : String) : Prop where
  got : r.get? url = none
  unlisted : r.contains url = false
  untouched : (∀ load enabled, r.setEnabled load url enabled = (r, false)) ∧
    r.remove url = (r, none)

theorem finds_of_get? (h : r.get? url = some f) : r.Finds url f := by
  have hlisted : r.contains url = true := by rw [contains_eq_isSome, h, Option.isSome_some]
  obtain ⟨hurl, before, after, hsplit, hbefore⟩ := List.find?_eq_some_iff_append.mp h
  have hearlier : ∀ g ∈ before, decide (g.url = url) = false := by simpa using hbefore
  refine ⟨h, hlisted, before, after, hsplit, fun load enabled => ?_, ?_⟩
  · rw [setEnabled, if_pos hlisted, hsplit, modifyFirst_append_cons hearlier hurl]
  · have herased : (f :: after).eraseP (fun g => g.url = url) = after :=
      List.eraseP_cons_of_pos hurl
    rw [remove, h, hsplit, List.eraseP_append_right _ (by simpa using hearlier), herased]

theorem findsNothing_of_get? (h : r.get? url = none) : r.FindsNothing url := by
  have hunlisted : r.contains url = false := by rw [contains_eq_isSome, h, Option.isSome_none]
  refine ⟨h, hunlisted, fun load enabled => ?_, ?_⟩
  · rw [setEnabled, if_neg (by simp [hunlisted])]
  · rw [remove, h, List.eraseP_of_forall_not (List.find?_eq_none.mp h)]

/-- Deduplication leaves the filters whose URL does not occur earlier, as they are and in their
order, and nothing else of the registry changes. It returns how many it has dropped, and there is
nothing left to drop. Every URL is still listed, and a search for it ends at the same filter. -/
theorem deduplicate_exact (r : Registry) :
    r.deduplicate.1 = { r with filters := firstOccurrences r.filters } ∧
    r.deduplicate.2 = repetitions r.filters ∧
    r.deduplicate.1.filters.length + r.deduplicate.2 = r.filters.length ∧
    (∀ url, url ∈ r.deduplicate.1.filters.map (·.url) ↔ url ∈ r.filters.map (·.url)) ∧
    r.deduplicate.1.deduplicate = (r.deduplicate.1, 0) ∧
    ∀ url, (∃ f, r.Finds url f ∧ r.deduplicate.1.Finds url f) ∨
      (r.FindsNothing url ∧ r.deduplicate.1.FindsNothing url) := by
  have hkept : r.deduplicate.1.filters = firstOccurrences r.filters :=
    firstByUrl_eq_firstOccurrences r.filters
  have hlength := length_firstOccurrences r.filters
  have hdropped : r.deduplicate.2 = r.filters.length - r.deduplicate.1.filters.length := rfl
  refine ⟨?_, ?_, ?_, fun url => ?_, deduplicate_deduplicate r, fun url => ?_⟩
  · rw [← hkept]
    rfl
  · rw [hdropped, hkept]
    omega
  · rw [hdropped, hkept]
    omega
  · rw [← contains_iff, ← contains_iff, contains_eq_isSome, contains_eq_isSome, get?_deduplicate]
  · have hsame := get?_deduplicate r url
    cases hfound : r.get? url with
    | none => exact .inr ⟨findsNothing_of_get? hfound, findsNothing_of_get? (hsame.trans hfound)⟩
    | some f => exact .inl ⟨f, finds_of_get? hfound, finds_of_get? (hsame.trans hfound)⟩

end FilterLists.Registry
