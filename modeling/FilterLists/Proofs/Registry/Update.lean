import Mathlib
import FilterLists.Registry

/-! How the operations of a registry change its list of filters. Enabling, loading and merging keep
every filter in its place with its id and URL, and the rest take filters away or append one, so a
property of all filters is kept if the change of a single filter keeps it. -/
namespace FilterLists.Registry

section ModifyFirst
variable {α β : Type} {p : α → Bool} {g : α → α} {l : List α}

theorem modifyFirst_eq_self (h : ∀ a ∈ l, p a = false) : modifyFirst p g l = l := by
  induction l with
  | nil => rfl
  | cons a rest ih =>
    have ha := h a List.mem_cons_self
    simp only [modifyFirst, ha, Bool.false_eq_true, if_false]
    rw [ih (fun b hb => h b (List.mem_cons_of_mem a hb))]

theorem modifyFirst_append_cons {before after : List α} {a : α} (h : ∀ b ∈ before, p b = false)
    (ha : p a = true) : modifyFirst p g (before ++ a :: after) = before ++ g a :: after := by
  induction before with
  | nil => rw [List.nil_append, List.nil_append, modifyFirst, if_pos ha]
  | cons b rest ih =>
    obtain ⟨hb, hrest⟩ := List.forall_mem_cons.mp h
    rw [List.cons_append, modifyFirst, if_neg (by simp [hb]), ih hrest, List.cons_append]

theorem forall_modifyFirst {P : α → Prop} (h : ∀ a ∈ l, P a)
    (hg : ∀ a ∈ l, p a = true → P (g a)) : ∀ b ∈ modifyFirst p g l, P b := by
  induction l with
  | nil => simp [modifyFirst]
  | cons a rest ih =>
    have hrest : ∀ b ∈ rest, P b := fun b hb => h b (List.mem_cons_of_mem a hb)
    unfold modifyFirst
    split_ifs with hp
    · exact List.forall_mem_cons.mpr ⟨hg a List.mem_cons_self hp, hrest⟩
    · exact List.forall_mem_cons.mpr
        ⟨h a List.mem_cons_self, ih hrest (fun b hb => hg b (List.mem_cons_of_mem a hb))⟩

/-- Only the first element that satisfies the test is looked at. -/
theorem map_modifyFirst {k : α → β} (h : ∀ a, l.find? p = some a → k (g a) = k a) :
    (modifyFirst p g l).map k = l.map k := by
  induction l with
  | nil => rfl
  | cons a rest ih =>
    unfold modifyFirst
    by_cases hp : p a = true
    · simp [hp, h a (by simp [hp])]
    · simp [hp, ih (fun b hb => h b (by simpa [hp] using hb))]

/-- Where at most one element satisfies the test, the change of the first is a change of all. -/
theorem modifyFirst_eq_map (h : l.Pairwise (fun a b => ¬ (p a = true ∧ p b = true))) :
    modifyFirst p g l = l.map (fun a => if p a then g a else a) := by
  induction l with
  | nil => rfl
  | cons a rest ih =>
    obtain ⟨ha, hrest⟩ := List.pairwise_cons.mp h
    unfold modifyFirst
    by_cases hp : p a = true
    · have hothers : ∀ b ∈ rest, (if p b then g b else b) = b := by
        intro b hb
        have hnb : p b = false := by simpa [hp] using ha b hb
        simp [hnb]
      simp [hp, List.map_congr_left hothers]
    · simp [hp, ih hrest]

theorem perm_cons_eraseP {a : α} (h : l.find? p = some a) : l.Perm (a :: l.eraseP p) := by
  induction l with
  | nil => cases h
  | cons first rest ih =>
    by_cases hp : p first = true
    · rw [List.find?_cons_of_pos hp] at h
      cases h
      rw [List.eraseP_cons_of_pos hp]
    · rw [List.find?_cons_of_neg hp] at h
      rw [List.eraseP_cons_of_neg hp]
      exact ((ih h).cons first).trans (List.Perm.swap _ _ _)

end ModifyFirst

/-- The loader changes what the content determines and the time only. -/
def Keeps (load : Loader) : Prop :=
  ∀ f loaded, load f = .ok loaded →
    loaded.id = f.id ∧ loaded.url = f.url ∧ loaded.name = f.name ∧ loaded.enabled = f.enabled

theorem setEnabled_filters (r : Registry) (load : Loader) (url : String) (enabled : Bool) :
    (r.setEnabled load url enabled).1.filters =
      modifyFirst (fun f => f.url = url) (switch load enabled) r.filters := by
  unfold setEnabled
  split_ifs with hlisted
  · rfl
  · have hall : ∀ f ∈ r.filters, decide (f.url = url) = false := by
      simpa [contains] using hlisted
    exact (modifyFirst_eq_self hall).symm

theorem mergeOne_filters (r : Registry) (fresh : Refreshed) :
    (r.mergeOne fresh).1.filters =
      modifyFirst (sameSubscription · fresh.filter) (takeOver fresh) r.filters := by
  unfold mergeOne
  cases hlive : r.filters.find? (sameSubscription · fresh.filter) with
  | none =>
    have hall := List.find?_eq_none.mp hlive
    exact (modifyFirst_eq_self (fun f hf => by simpa using hall f hf)).symm
  | some live => rfl

theorem mergeOne_frame (r : Registry) (fresh : Refreshed) :
    (r.mergeOne fresh).1.nextId = r.nextId ∧ (r.mergeOne fresh).1.userRules = r.userRules := by
  unfold mergeOne
  split <;> exact ⟨rfl, rfl⟩

theorem mergeFrom_frame (r : Registry) (n : Nat) (results : List Refreshed) :
    (r.mergeFrom n results).1.nextId = r.nextId ∧
      (r.mergeFrom n results).1.userRules = r.userRules := by
  induction results generalizing r n with
  | nil => exact ⟨rfl, rfl⟩
  | cons fresh rest ih =>
    obtain ⟨hid, hrules⟩ := mergeOne_frame r fresh
    obtain ⟨hids, hruless⟩ := ih (r.mergeOne fresh).1
      (if (r.mergeOne fresh).2 then n + 1 else n)
    exact ⟨hids.trans hid, hruless.trans hrules⟩

theorem map_mergeFrom {β : Type} {k : Filter → β}
    (h : ∀ fresh live, k (takeOver fresh live) = k live) (r : Registry) (n : Nat)
    (results : List Refreshed) : (r.mergeFrom n results).1.filters.map k = r.filters.map k := by
  induction results generalizing r n with
  | nil => rfl
  | cons fresh rest ih =>
    rw [mergeFrom, ih, mergeOne_filters]
    exact map_modifyFirst (fun live _ => h fresh live)

theorem takeOver_subscription (fresh : Refreshed) (live : Filter) :
    (takeOver fresh live).id = live.id ∧ (takeOver fresh live).url = live.url ∧
      (takeOver fresh live).enabled = live.enabled := by
  unfold takeOver
  split <;> exact ⟨rfl, rfl, rfl⟩

theorem map_id_merge (r : Registry) (results : List Refreshed) :
    (r.merge results).1.filters.map (·.id) = r.filters.map (·.id) :=
  map_mergeFrom (fun fresh live => (takeOver_subscription fresh live).1) r 0 results

theorem switch_subscription {load : Loader} (hload : Keeps load) (enabled : Bool) (f : Filter) :
    (switch load enabled f).id = f.id ∧ (switch load enabled f).url = f.url ∧
      (switch load enabled f).enabled = enabled := by
  unfold switch
  cases enabled with
  | false => exact ⟨rfl, rfl, rfl⟩
  | true =>
    cases h : load { f with enabled := true } with
    | error e => simp [h]
    | ok loaded =>
      obtain ⟨hid, hurl, _, henabled⟩ := hload _ _ h
      simp [h, hid, hurl, henabled]

theorem map_setEnabled {β : Type} {k : Filter → β} {load : Loader} {enabled : Bool}
    (h : ∀ f, k (switch load enabled f) = k f) (r : Registry) (url : String) :
    (r.setEnabled load url enabled).1.filters.map k = r.filters.map k := by
  rw [setEnabled_filters]
  exact map_modifyFirst (fun f _ => h f)

theorem map_id_setEnabled {load : Loader} (hload : Keeps load) (r : Registry) (url : String)
    (enabled : Bool) :
    (r.setEnabled load url enabled).1.filters.map (·.id) = r.filters.map (·.id) :=
  map_setEnabled (fun f => (switch_subscription hload enabled f).1) r url

theorem loadEnabled_subscription {load : Loader} (hload : Keeps load) (f : Filter) :
    (loadEnabled load f).id = f.id ∧ (loadEnabled load f).url = f.url ∧
      (loadEnabled load f).enabled = f.enabled := by
  unfold loadEnabled
  split
  · cases h : load f with
    | error e => exact ⟨rfl, rfl, rfl⟩
    | ok loaded =>
      obtain ⟨hid, hurl, _, henabled⟩ := hload _ _ h
      exact ⟨hid, hurl, henabled⟩
  · exact ⟨rfl, rfl, rfl⟩

section Forall
variable {P : Filter → Prop} {r : Registry}

theorem forall_setEnabled {load : Loader} {enabled : Bool} (url : String)
    (h : ∀ f ∈ r.filters, P f) (hswitch : ∀ f ∈ r.filters, P (switch load enabled f)) :
    ∀ f ∈ (r.setEnabled load url enabled).1.filters, P f := by
  rw [setEnabled_filters]
  exact forall_modifyFirst h (fun f hf _ => hswitch f hf)

/-- A merge changes only filters that a result is of. -/
theorem forall_mergeFrom_of_same {results : List Refreshed} (n : Nat) (h : ∀ f ∈ r.filters, P f)
    (hmerge : ∀ fresh ∈ results, ∀ live, sameSubscription live fresh.filter = true →
      P live → P (takeOver fresh live)) :
    ∀ f ∈ (r.mergeFrom n results).1.filters, P f := by
  induction results generalizing r n with
  | nil => exact h
  | cons fresh rest ih =>
    obtain ⟨hfresh, hrest⟩ := List.forall_mem_cons.mp hmerge
    have hone : ∀ f ∈ (r.mergeOne fresh).1.filters, P f := by
      rw [mergeOne_filters]
      exact forall_modifyFirst h (fun f hf hsame => hfresh f hsame (h f hf))
    exact ih _ hone hrest

theorem forall_mergeFrom {results : List Refreshed} (n : Nat) (h : ∀ f ∈ r.filters, P f)
    (hmerge : ∀ fresh ∈ results, ∀ live, P live → P (takeOver fresh live)) :
    ∀ f ∈ (r.mergeFrom n results).1.filters, P f :=
  forall_mergeFrom_of_same n h (fun fresh hfresh live _ => hmerge fresh hfresh live)

theorem forall_assignMissing {nextId : FilterId} {filters : List Filter}
    (h : ∀ f ∈ filters, ∀ id, (f.id ≠ 0 → id = f.id) → P { f with id }) :
    ∀ f ∈ (assignMissing nextId filters).1, P f := by
  induction filters generalizing nextId with
  | nil => simp [assignMissing]
  | cons f rest ih =>
    obtain ⟨hf, hrest⟩ := List.forall_mem_cons.mp h
    unfold assignMissing
    split_ifs with hzero
    · exact List.forall_mem_cons.mpr ⟨hf nextId (fun hne => absurd hzero hne), ih hrest⟩
    · exact List.forall_mem_cons.mpr ⟨hf f.id (fun _ => rfl), ih hrest⟩

theorem forall_loadAll {load : Loader}
    (h : ∀ f ∈ r.filters, ∀ id, (f.id ≠ 0 → id = f.id) → P (loadEnabled load { f with id })) :
    ∀ f ∈ (r.loadAll load).filters, P f := by
  have hassigned : ∀ f ∈ (assignMissing r.nextId r.filters).1, P (loadEnabled load f) :=
    forall_assignMissing (P := fun f => P (loadEnabled load f)) h
  intro f hf
  obtain ⟨g, hg, rfl⟩ := List.mem_map.mp hf
  exact hassigned g hg

end Forall

theorem firstByUrl_sublist (seen : List String) (filters : List Filter) :
    (firstByUrl seen filters).Sublist filters := by
  induction filters generalizing seen with
  | nil => exact List.Sublist.slnil
  | cons f rest ih =>
    unfold firstByUrl
    split
    · exact (ih seen).cons f
    · exact (ih (f.url :: seen)).cons_cons f

theorem deduplicate_sublist (r : Registry) : r.deduplicate.1.filters.Sublist r.filters :=
  firstByUrl_sublist [] r.filters

theorem remove_sublist (r : Registry) (url : String) :
    (r.remove url).1.filters.Sublist r.filters :=
  List.eraseP_sublist

end FilterLists.Registry
