import FilterLists.Record

/-! What is written into a record in place is what the functions on whole records return. A failure
comes before the first write, so the record is then the one that was given. -/
namespace FilterLists

namespace InPlace
variable {σ α β : Type} (start : σ)

/-- A failure ends the computation with the state that was reached. -/
theorem perform_bind (x : InPlace σ α) (next : α → InPlace σ β) :
    perform (x >>= next) start =
      match perform x start with
      | (.ok a, reached) => perform (next a) reached
      | (.error e, reached) => (.error e, reached) := by
  simp only [perform, ExceptT.run_bind, StateT.run_bind]
  rcases x.run.run start with ⟨result, reached⟩
  cases result <;> rfl

theorem perform_get : perform (get : InPlace σ σ) start = (.ok start, start) :=
  rfl

theorem perform_set (next : σ) : perform (set next : InPlace σ PUnit) start = (.ok (), next) :=
  rfl

theorem perform_except (result : Except Error α) :
    perform (result : InPlace σ α) start = (result, start) :=
  rfl

theorem perform_state (x : StateM σ α) :
    perform (x : InPlace σ α) start = (.ok (x.run start).1, (x.run start).2) :=
  rfl

end InPlace
open InPlace

namespace Filter

theorem storeContent_run (f : Filter) (content : Bytes) :
    (storeContent content (FilterLists.checksum content)).run f =
      ((Content.Summary.ofBytes content).title, f.setContent content) :=
  rfl

theorem storeFetched_run (f : Filter) (body : Bytes) :
    (storeFetched body).run f = ((f.applyFetched body).2, (f.applyFetched body).1) := by
  unfold Filter.applyFetched
  by_cases hsame : f.checksum = some (FilterLists.checksum body)
  · simp only [storeFetched, StateT.run_bind, StateT.run_get, pure_bind, if_pos hsame]
    rfl
  · simp only [storeFetched, StateT.run_bind, StateT.run_get, pure_bind, if_neg hsame,
      storeContent_run]
    cases (Content.Summary.ofBytes body).title <;> rfl

end Filter

/-- A download in place returns what the reply makes of the record, or leaves it alone. -/
theorem Fetch.perform_download (network : Network) (f : Filter) :
    (Fetch.download network).perform f =
      match Fetch.apply (network f.url) f with
      | .ok (fetched, changed) => (.ok changed, fetched)
      | .error e => (.error e, f) := by
  unfold Fetch.download Fetch.apply
  simp only [perform_bind, perform_get]
  cases network f.url with
  | failed cause => rfl
  | answered status header body =>
    by_cases hstatus : status ≠ 200
    · simp only [if_pos hstatus]
      rfl
    · by_cases htext : (!isPlainText (contentTypeText header)) = true
      · simp only [if_neg hstatus, if_pos htext]
        rfl
      · simp only [if_neg hstatus, if_neg htext]
        cases body with
        | error cause => rfl
        | ok bytes => simp only [perform_state, Filter.storeFetched_run]

def StoreOutcome.ofResult (f : Filter) : Store × Except Error Filter → StoreOutcome
  | (store, .ok changed) => { store, filter := changed, result := .ok () }
  | (store, .error e) => { store, filter := f, result := .error e }

namespace StoreCall
variable (s : Store) (f : Filter) (faults : Faults) (now : Instant)

theorem run_save : (⟨.save, f, faults, now⟩ : StoreCall).run s =
    .ofResult f (s.save faults now f) := by
  unfold run action Store.saveRecord Store.save
  simp only [perform_bind, perform_get, perform_except]
  cases s.ensureDirectory faults now with
  | error e => rfl
  | ok ready =>
    simp only [perform_set]
    rcases Store.writeThrough _ _ _ _ _ _ with ⟨reached, written⟩
    cases written <;> rfl

theorem run_load : (⟨.load, f, faults, now⟩ : StoreCall).run s =
    .ofResult f (s, s.load faults f) := by
  unfold run action Store.loadRecord Store.load
  simp only [perform_bind, perform_get]
  cases s.read faults (Store.fileName f.id) with
  | error e => cases e <;> rfl
  | ok content => rfl

theorem run_touch : (⟨.touch, f, faults, now⟩ : StoreCall).run s =
    .ofResult f (s.touch faults now f) := by
  unfold run action Store.touchRecord Store.touch
  simp only [perform_bind, perform_get]
  cases Store.unlessRefused (faults .touch) (s.entry (Store.fileName f.id)) with
  | error e => rfl
  | ok node => cases node <;> rfl

theorem run_remove : (⟨.remove, f, faults, now⟩ : StoreCall).run s =
    { store := (s.remove faults f).1, filter := f, result := (s.remove faults f).2 } :=
  rfl

end StoreCall

end FilterLists
