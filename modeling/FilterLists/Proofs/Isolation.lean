import FilterLists.Proofs.Parsing
import FilterLists.Proofs.Store.Calls

/-! What was saved for a filter is what is loaded for it later, whatever happens to other filters in
the same directory. Only a touch of the filter itself moves the time of its file meanwhile. -/
namespace FilterLists

namespace StoreCall

/-- A file that may be read and examined is loaded with its bytes and its time. -/
theorem run_load_of_cached {s : Store} {f : Filter} {body : Bytes} {t now : Instant}
    {faults : Faults} (hfile : s.cached f.id = .ok (.file body t)) (hread : faults .read = none)
    (hstat : faults .stat = none) :
    (⟨.load, f, faults, now⟩ : StoreCall).run s =
      { store := s
        filter := { f.setContent body with lastUpdated := some t }
        result := .ok () } := by
  have hbytes : s.read faults (Store.fileName f.id) = .ok body := by
    rw [Store.read, hread, show s.entry (Store.fileName f.id) = _ from hfile]
    rfl
  have htime : s.lastModified faults f = some t := by
    rw [Store.lastModified_eq, hfile, hstat]
    rfl
  simp only [run_load, Store.load, hbytes, htime]
  rfl

/-- The time that a successful touch of the filter has set. -/
def touchedAt (id : FilterId) (made : StoreCall × StoreOutcome) : Option Instant :=
  if made.1.operation = .touch ∧ made.1.filter.id = id ∧ made.2.result.isOk then
    made.2.filter.lastUpdated
  else none

def lastTouched (id : FilterId) (made : List (StoreCall × StoreOutcome)) : Option Instant :=
  (made.filterMap (touchedAt id)).getLast?

theorem getD_lastTouched_cons (id : FilterId) (first : StoreCall × StoreOutcome)
    (rest : List (StoreCall × StoreOutcome)) (t : Instant) :
    (lastTouched id (first :: rest)).getD t =
      (lastTouched id rest).getD ((touchedAt id first).getD t) := by
  unfold lastTouched
  cases htime : touchedAt id first with
  | none => rw [List.filterMap_cons_none htime, Option.getD_none]
  | some touched =>
    rw [List.filterMap_cons_some htime, List.getLast?_cons, Option.getD_some, Option.getD_some]

variable {s : Store} {id : FilterId} {body : Bytes} {t : Instant}

/-- One call keeps the bytes of a cached file, unless it saves or removes this file. -/
theorem run_keeps {c : StoreCall} (hfile : s.cached id = .ok (.file body t))
    (hsafe : c.filter.id = id → c.operation = .load ∨ c.operation = .touch) :
    (c.run s).store.cached id = .ok (.file body ((touchedAt id (c, c.run s)).getD t)) := by
  by_cases hid : c.filter.id = id
  · subst hid
    obtain ⟨operation, f, faults, now⟩ := c
    rcases hsafe rfl with rfl | rfl
    · rw [touchedAt, if_neg (fun h => by cases h.1), run_load, StoreOutcome.ofResult_store]
      exact hfile
    · rcases run_touch_cases s f faults now with ⟨content, earlier, hfound, heq⟩ | ⟨e, heq⟩
      · obtain ⟨rfl, rfl⟩ := Node.file.inj (Except.ok.inj (hfile.symm.trans hfound))
        rw [touchedAt, heq, if_pos ⟨rfl, rfl, rfl⟩]
        exact (Store.isOpen_of_entry hfile).entry_put_self _ (Store.utf8ByteSize_fileName_le f.id)
      · rw [touchedAt, heq, if_neg (fun h => by cases h.2.2)]
        exact hfile
  · rw [touchedAt, if_neg (fun h => hid h.2.1), run_cached_of_ne (Ne.symm hid)]
    exact hfile

theorem runAll_keeps (calls : List StoreCall) (hfile : s.cached id = .ok (.file body t))
    (hsafe : ∀ c ∈ calls, c.filter.id = id → c.operation = .load ∨ c.operation = .touch) :
    (runAll s calls).1.cached id =
      .ok (.file body ((lastTouched id (runAll s calls).2).getD t)) := by
  induction calls generalizing s t with
  | nil => exact hfile
  | cons c rest ih =>
    have hstep := run_keeps hfile (hsafe c List.mem_cons_self)
    have hrest := ih hstep fun d hd => hsafe d (List.mem_cons_of_mem c hd)
    rw [runAll, getD_lastTouched_cons]
    exact hrest

/-- No call changes the bytes or the time of the file of another filter. So after a save that
succeeds, and after any calls for other filters and any loads and touches of this one, every record
with the id of the filter is loaded with the bytes that were saved, with what is known of them, and
with the time of the last touch, or else that of the save. The rest of the record stays. -/
theorem loads_what_was_saved :
    (∀ (c : StoreCall) (s : Store) (id : FilterId), id ≠ c.filter.id →
      (c.run s).store.cached id = s.cached id) ∧
    ∀ (s : Store) (f : Filter) (faults : Faults) (now : Instant),
      let saved := (⟨.save, f, faults, now⟩ : StoreCall).run s
      saved.result = .ok () →
      (faults .stat = none → saved.filter.lastUpdated = some now) ∧
      ∀ calls : List StoreCall,
        (∀ c ∈ calls, c.filter.id = f.id → c.operation = .load ∨ c.operation = .touch) →
        ∀ (g : Filter) (reader : Faults) (later : Instant),
          g.id = f.id → reader .read = none → reader .stat = none →
          let ran := runAll saved.store calls
          let body := f.content.getD []
          let loaded := (⟨.load, g, reader, later⟩ : StoreCall).run ran.1
          loaded.result = .ok () ∧ loaded.filter = { g with
            content := some body
            checksum := some (checksum body)
            ruleCount := (Content.rules body).length
            lastUpdated := some ((lastTouched f.id ran.2).getD now) } := by
  refine ⟨fun c s id h => run_cached_of_ne h, fun s f faults now => ?_⟩
  dsimp only
  rcases run_save_cases s f faults now with ⟨done, heq, hfile, -⟩ | ⟨stopped, e, heq, -⟩
  · rw [heq]
    intro _
    refine ⟨fun hstat => if_pos (Option.isNone_iff_eq_none.mpr hstat), ?_⟩
    intro calls hsafe g reader later hid hread hstat
    have hkept := runAll_keeps calls hfile hsafe
    rw [← hid] at hkept
    rw [run_load_of_cached hkept hread hstat, Filter.setContent, Content.Summary.ofBytes_eq, hid]
    exact ⟨rfl, rfl⟩
  · rw [heq]
    intro hsaved
    cases hsaved

/-- A content that is no text, under a negative id. -/
def binaryFilter : Filter :=
  { id := -7, url := "http://a", content := some [0xFF, 0x0A, 0x00] }

/-- Calls for the neighbours of the filter, with a touch of its own file among them. -/
def callsAround : List StoreCall :=
  [⟨.save, { binaryFilter with id := 7, content := none }, Faults.none, ⟨2⟩⟩,
    ⟨.touch, { url := "http://b", id := -7 }, Faults.none, ⟨3⟩⟩,
    ⟨.remove, { binaryFilter with id := -8 }, Faults.none, ⟨4⟩⟩,
    ⟨.load, { url := "http://b", id := -7 }, Faults.none, ⟨5⟩⟩]

def storeAround : Store × List (StoreCall × StoreOutcome) :=
  runAll ((⟨.save, binaryFilter, Faults.none, ⟨1⟩⟩ : StoreCall).run { path := "cache" }).store
    callsAround

theorem loads_binaryFilter :
    ((⟨.load, { url := "http://b", id := -7 }, Faults.none, ⟨6⟩⟩ : StoreCall).run
      storeAround.1).filter =
      { id := -7, url := "http://b", content := some [0xFF, 0x0A, 0x00],
        checksum := some 3140879733, ruleCount := 2, lastUpdated := some ⟨3⟩ } := by
  have hsafe : ∀ c ∈ callsAround, c.filter.id = binaryFilter.id →
      c.operation = .load ∨ c.operation = .touch := by
    decide +kernel
  obtain ⟨-, hloads⟩ :=
    loads_what_was_saved.2 { path := "cache" } binaryFilter Faults.none ⟨1⟩ (by decide +kernel)
  obtain ⟨-, hloaded⟩ :=
    hloads callsAround hsafe { url := "http://b", id := -7 } Faults.none ⟨6⟩ rfl rfl rfl
  have htouched : lastTouched binaryFilter.id storeAround.2 = some ⟨3⟩ := by
    decide +kernel
  rw [storeAround] at htouched ⊢
  rw [hloaded, htouched]
  decide +kernel

end StoreCall

end FilterLists
