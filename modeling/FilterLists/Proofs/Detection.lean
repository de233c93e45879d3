import FilterLists.Proofs.Checksum
import FilterLists.Proofs.Counting

/-! Short bursts in a list are never missed. The filter that holds the list as it was takes the list
with the burst for new content in every step of its refresh, whatever becomes of its cached file in
between. -/
namespace FilterLists

namespace Filter

/-- The body is the content of the filter, and the other fields tell of this content. -/
structure Carries (f : Filter) (body : Bytes) : Prop where
  content : f.content = some body
  checksum : f.checksum = some (FilterLists.checksum body)
  ruleCount : f.ruleCount = (Content.Summary.ofBytes body).ruleCount

variable {f g : Filter} {body : Bytes}

theorem carries_renewed (f : Filter) (body : Bytes) : (f.renewed body).Carries body :=
  ⟨rfl, rfl, rfl⟩

theorem Carries.of_undated (h : f.undated = g.undated) (hg : g.Carries body) : f.Carries body :=
  ⟨(congrArg Filter.content h :).trans hg.content, (congrArg Filter.checksum h :).trans hg.checksum,
    (congrArg Filter.ruleCount h :).trans hg.ruleCount⟩

end Filter

namespace Refresh
variable {s : Store} {faults : Faults} {reply : Reply} {f : Filter} {b b' : Bytes}

theorem confirms_of_isBurst (h : IsBurst b b') (hsum : f.checksum = some (checksum b))
    (s : Store) (faults : Faults) : confirms s faults f b' = false := by
  have hne := checksum_ne_of_isBurst h
  simp [confirms, hsum, hne]

/-- The download of a list with a burst is new content, also if the file was found lost before. -/
theorem apply_of_isBurst (h : IsBurst b b') (hsum : f.checksum = some (checksum b))
    (hbody : reply.body? = some b') (s : Store) (faults : Faults) :
    Fetch.apply reply (prepare s faults f) = .ok ((prepare s faults f).renewed b', true) := by
  have hnew := checksum_prepare_ne (confirms_of_isBurst h hsum s faults)
  rw [Fetch.apply_of_body hbody, Filter.applyFetched_eq, if_neg hnew]

/-- A list with a burst is not left out of a cycle but for its save. -/
theorem fate_of_isBurst {policy : RefreshPolicy} {env : Surroundings} {now : Instant} {force : Bool}
    (h : IsBurst b b') (hsum : f.checksum = some (checksum b))
    (hdue : isDue policy now force f = true) (hbody : (env.network f.url).body? = some b') :
    fate s policy env now force f =
      if s.accepts (env.faults f.id) (f.renewed b') then
        some { filter := (f.refreshCopy.renewed b').undated, changed := true }
      else none := by
  rw [fate_of_body hdue hbody, confirms_of_isBurst h hsum, if_neg Bool.false_ne_true]

end Refresh

section Ending
variable {service : Service} {policy : RefreshPolicy} {env : Surroundings} {now : Instant}
  {force : Bool} {s : Store} {c : Cycle} {f : Filter} {b b' : Bytes}

/-- A list with a burst that can be saved is merged, stored and counted. -/
theorem Cycle.Follows.merged_of_isBurst
    (h : c.Follows env service.store (Refresh.candidates service policy now force) s)
    (hids : (service.registry.filters.map (·.id)).Nodup) (hdone : c.isDone = true)
    (hf : f ∈ service.registry.filters) (hburst : IsBurst b b')
    (hsum : f.checksum = some (checksum b)) (hdue : Refresh.isDue policy now force f = true)
    (hbody : (env.network f.url).body? = some b')
    (haccepts : service.store.accepts (env.faults f.id) (f.renewed b') = true) :
    (∃ live ∈ (service.registry.merge c.results).1.filters,
      live.id = f.id ∧ live.url = f.url ∧ live.Carries b') ∧
      s.contents f.id = .ok b' ∧ 0 < (service.registry.merge c.results).2 := by
  have henabled : f.enabled = true := Refresh.enabled_of_isDue hdue
  have hfate := Refresh.fate_of_isBurst (s := service.store) hburst hsum hdue hbody
  rw [haccepts, if_pos rfl] at hfate
  obtain ⟨hlanding, hcontents, -⟩ := h.fate_eq hids hdone hf
  rw [hfate] at hlanding hcontents
  refine ⟨⟨Registry.landed c.results f, ?_, ?_⟩, hcontents, ?_⟩
  · rw [Registry.merge, Registry.mergeFrom_eq 0 hids h.distinct.results]
    exact List.mem_map_of_mem hf
  · obtain ⟨hid, hurl, -⟩ := Registry.landed_subscription c.results f
    refine ⟨hid, hurl, Filter.Carries.of_undated (Registry.landed_undated hlanding).1 ?_⟩
    simp only [Registry.takeOver, henabled, Bool.and_self, if_true]
    exact ⟨rfl, rfl, rfl⟩
  · -- The count may be that of other filters too, so only its sign is known.
    rw [(h.merge_eq hids hdone).2, List.countP_pos_iff]
    exact ⟨f, hf, by simp [hfate, Registry.isRenewed, henabled]⟩

end Ending

/-- Let a body differ from another one of the same length within at most four bytes. Its checksum is
another one, and a filter with the old checksum stores it. So does a refresh of this filter in any
state of the cache: whatever outcome its save has in any later state, the body is reported as new.
A whole cycle with nothing in between stores and counts it, or its save fails and leaves the filter
and its file as they are. -/
theorem detects_of_isBurst {b b' : Bytes} (h : IsBurst b b') :
    checksum b ≠ checksum b' ∧
    (∀ f : Filter, f.checksum = some (checksum b) →
      ∃ g, f.applyFetched b' = (g, true) ∧ g.Carries b') ∧
    (∀ (s : Store) (faults : Faults) (reply : Reply) (f : Filter),
      f.checksum = some (checksum b) → reply.body? = some b' →
      ∃ g, Fetch.apply reply (Refresh.prepare s faults f) = .ok (g, true) ∧ g.Carries b' ∧
        ∀ (later : Store) (faults : Faults) (now : Instant),
          ∀ fresh ∈ (Refresh.persist later faults now g true).2,
            fresh.changed = true ∧ fresh.filter.Carries b') ∧
    ∀ (l : LiveService) (env : Surroundings) (now : Instant) (force : Bool) (moves : List CycleMove),
      l.isIdle = true → (l.service.registry.filters.map (·.id)).Nodup →
      l.Meets env now force moves →
      let after := l.runAlone ⟨now, force, moves⟩
      after.isIdle = true →
      ∀ f ∈ l.service.registry.filters, f.checksum = some (checksum b) →
        Refresh.isDue l.policy now force f = true → (env.network f.url).body? = some b' →
        if l.service.store.accepts (env.faults f.id) (f.renewed b') then
          (∃ live ∈ after.service.registry.filters,
            live.id = f.id ∧ live.url = f.url ∧ live.Carries b') ∧
          after.service.store.contents f.id = .ok b' ∧ ∀ n, after.ended = .ok n :: l.ended → 0 < n
        else
          f ∈ after.service.registry.filters ∧
            after.service.store.cached f.id = l.service.store.cached f.id := by
  refine ⟨checksum_ne_of_isBurst h, fun f hsum => ?_, fun s faults reply f hsum hbody => ?_, ?_⟩
  · have hnew : f.checksum ≠ some (checksum b') := by
      rw [hsum]
      exact fun hsame => checksum_ne_of_isBurst h (Option.some.inj hsame)
    exact ⟨f.renewed b', by rw [Filter.applyFetched_eq, if_neg hnew], f.carries_renewed b'⟩
  · refine ⟨_, Refresh.apply_of_isBurst h hsum hbody s faults, Filter.carries_renewed _ _, ?_⟩
    intro later faults now fresh hfresh
    obtain ⟨t, rfl⟩ := Refresh.persist_outcome hfresh
    exact ⟨rfl, rfl, rfl, rfl⟩
  · intro l env now force moves hidle hids hmeets after hends f hf hsum hdue hbody
    obtain ⟨hdone, -⟩ := LiveService.runAlone_of_isIdle (LiveService.isIdle_iff.mp hidle) hends
    obtain ⟨hmerged, hstore⟩ := LiveService.runAlone_frame (LiveService.isIdle_iff.mp hidle) hends
    have hregistry : after.service.registry = _ := hmerged
    have hcache : after.service.store = _ := hstore
    have hfollows := LiveService.follows_lastState hids hmeets
    rw [hregistry, hcache]
    split_ifs with haccepts
    · obtain ⟨hlive, hcontents, hcount⟩ :=
        hfollows.merged_of_isBurst hids hdone hf h hsum hdue hbody haccepts
      refine ⟨hlive, hcontents, fun n hended => ?_⟩
      rw [(LiveService.merged_of_ended hidle hended).2.2]
      exact hcount
    · refine hfollows.unchanged_of_fate hids hdone hf ?_
      rw [Refresh.fate_of_isBurst h hsum hdue hbody, if_neg haccepts]

namespace LiveService

def catFilter : Filter :=
  ({ id := 1, url := "http://a", enabled := true } : Filter).setContent
    (bytesOf "! pets\nad.cat.test\n")

def catListed : LiveService :=
  { service :=
      { registry := { filters := [catFilter] }
        store :=
          { path := "cache"
            place := some (.directory
              [(Store.fileName 1, .file (bytesOf "! pets\nad.cat.test\n") ⟨0⟩)] ⟨0⟩) } } }

def dogServed : Surroundings :=
  { network := fun _ => .plainText "! pets\nad.dog.test\n" }

def dogSaved : List CycleMove :=
  [.downloadStarts Faults.none, .downloadEnds 0 (.plainText "! pets\nad.dog.test\n"),
    .persists 0 Faults.none ⟨5⟩]

theorem isBurst_cat_dog :
    IsBurst (bytesOf "! pets\nad.cat.test\n") (bytesOf "! pets\nad.dog.test\n") := by
  have hcat : bytesOf "! pets\nad.cat.test\n" =
      bytesOf "! pets\nad." ++ (bytesOf "cat" ++ bytesOf ".test\n") := by decide +kernel
  have hdog : bytesOf "! pets\nad.dog.test\n" =
      bytesOf "! pets\nad." ++ (bytesOf "dog" ++ bytesOf ".test\n") := by decide +kernel
  rw [hcat, hdog]
  exact isBurst_of_words (by decide +kernel) (by decide +kernel) (by decide +kernel)

theorem meets_dogSaved : catListed.Meets dogServed ⟨0⟩ true dogSaved :=
  ⟨fun f _ => rfl, reply_of_url "http://a" rfl (by decide +kernel), fun f _ _ => rfl, trivial⟩

/-- Three bytes in the middle of a rule are others. -/
theorem detects_dogForCat :
    IsBurst (bytesOf "! pets\nad.cat.test\n") (bytesOf "! pets\nad.dog.test\n") ∧
      catListed.isIdle = true ∧ catListed.Meets dogServed ⟨0⟩ true dogSaved ∧
      (∃ live ∈ (catListed.runAlone ⟨⟨0⟩, true, dogSaved⟩).service.registry.filters,
        live.id = 1 ∧ live.Carries (bytesOf "! pets\nad.dog.test\n")) ∧
      (catListed.runAlone ⟨⟨0⟩, true, dogSaved⟩).service.store.contents 1 =
        .ok (bytesOf "! pets\nad.dog.test\n") := by
  obtain ⟨-, -, -, hcycle⟩ := detects_of_isBurst isBurst_cat_dog
  have hends : (catListed.runAlone ⟨⟨0⟩, true, dogSaved⟩).isIdle = true := by decide +kernel
  have hdetected := hcycle catListed dogServed ⟨0⟩ true dogSaved rfl (by decide) meets_dogSaved hends
    catFilter List.mem_cons_self rfl rfl rfl
  rw [if_pos (by decide +kernel)] at hdetected
  obtain ⟨⟨live, hlive, hid, -, hcarries⟩, hcontents, -⟩ := hdetected
  have hone : catFilter.id = 1 := rfl
  rw [hone] at hid hcontents
  exact ⟨isBurst_cat_dog, rfl, meets_dogSaved, ⟨live, hlive, hid, hcarries⟩, hcontents⟩

end LiveService

end FilterLists
