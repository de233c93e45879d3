import FilterLists.Proofs.Store.Calls

/-! A call on the cache that fails changes nothing that can be seen: neither the record that it was
given nor any cached file. A missing file is told apart from every other failure. -/
namespace FilterLists

namespace Store
variable {s : Store} {faults : Faults} {now : Instant} {f : Filter}

theorem read_eq_notFound_iff {id : FilterId} :
    s.read faults (fileName id) = .error .notFound ↔ s.LacksFile (faults .read) id := by
  rw [← lookup_eq_notFound_iff, read, cached]
  cases faults .read with
  | some e => simp [unlessRefused]
  | none =>
    cases s.entry (fileName id) with
    | error e => simp [unlessRefused]
    | ok node => cases node <;> simp [unlessRefused]

theorem load_eq_notCached_iff :
    s.load faults f = .error (.notCached (s.filePath f)) ↔ s.LacksFile (faults .read) f.id := by
  rw [← read_eq_notFound_iff, load]
  cases s.read faults (fileName f.id) with
  | ok content => simp
  | error e => cases e <;> simp

theorem load_eq_io {e : Error} (h : s.load faults f = .error e)
    (hfile : ¬ s.LacksFile (faults .read) f.id) :
    ∃ cause, e = .io (s.filePath f) cause := by
  rw [← read_eq_notFound_iff] at hfile
  unfold load at h
  split at h
  · cases h
  · exact absurd ‹_› hfile
  · exact ⟨_, (Except.error.inj h).symm⟩

/-- A removal succeeds and does nothing just where there is no file. -/
theorem remove_eq_self_iff :
    s.remove faults f = (s, .ok ()) ↔ s.LacksFile (faults .remove) f.id := by
  rw [← lookup_eq_notFound_iff, remove, ← cached]
  cases faults .remove with
  | some e => cases e <;> simp [unlessRefused]
  | none =>
    cases hfound : s.cached f.id with
    | error e => cases e <;> simp [unlessRefused]
    | ok node =>
      cases node with
      | directory entries t => simp [unlessRefused]
      | file content t =>
        simp only [unlessRefused, reduceCtorEq, iff_false]
        intro h
        -- Nothing is left of a file that was erased.
        have herased := (isOpen_of_entry hfound).entry_erase_self (utf8ByteSize_fileName_le f.id)
        rw [(Prod.mk.inj h).1] at herased
        cases hfound.symm.trans herased

end Store

namespace StoreCall

/-- A call that fails leaves every field of its record and every cached file with its time as they
were, in whatever state the directory is and whatever the device refuses. A load tells that the file
is not cached just where there is none, and names the cause of any other failure; just there a
removal succeeds without any effect. A touch that succeeds changes the time of the file and that of
the record, both to the same instant, and nothing else. -/
theorem unchanged_of_failed (c : StoreCall) (s : Store) :
    (∀ e, (c.run s).result = .error e →
      (c.run s).filter = c.filter ∧ ∀ id, (c.run s).store.cached id = s.cached id) ∧
    (c.operation = .load →
      ((c.run s).result = .error (.notCached (s.filePath c.filter)) ↔
        s.LacksFile (c.faults .read) c.filter.id) ∧
      ∀ e, (c.run s).result = .error e → ¬ s.LacksFile (c.faults .read) c.filter.id →
        ∃ cause, e = .io (s.filePath c.filter) cause) ∧
    (c.operation = .remove →
      ((c.run s).result = .ok () ∧ (c.run s).store = s ↔
        s.LacksFile (c.faults .remove) c.filter.id)) ∧
    (c.operation = .touch → (c.run s).result = .ok () →
      (c.run s).filter = { c.filter with lastUpdated := some c.now } ∧
      (∃ content t, s.cached c.filter.id = .ok (.file content t) ∧
        (c.run s).store.cached c.filter.id = .ok (.file content c.now)) ∧
      ∀ name, name ≠ Store.fileName c.filter.id →
        (c.run s).store.entry name = s.entry name) := by
  refine ⟨fun e h => run_failed h, ?_⟩
  obtain ⟨operation, f, faults, now⟩ := c
  refine ⟨?_, ?_, ?_⟩
  · rintro rfl
    rw [run_load]
    simp only [StoreOutcome.ofResult_eq_error_iff]
    exact ⟨Store.load_eq_notCached_iff, fun e h hfile => Store.load_eq_io h hfile⟩
  · rintro rfl
    rw [run_remove, ← Store.remove_eq_self_iff, Prod.ext_iff]
    exact and_comm
  · rintro rfl h
    rcases run_touch_cases s f faults now with ⟨content, t, hfile, heq⟩ | ⟨e, heq⟩
    · rw [heq]
      have hput := (Store.isOpen_of_entry hfile).entry_put_self (.file content now)
        (Store.utf8ByteSize_fileName_le f.id)
      exact ⟨rfl, ⟨content, t, hfile, hput⟩, fun name hname => s.entry_put_of_ne _ hname⟩
    · rw [heq] at h
      cases h

/-- A directory stands in the place of one cached file, and another one is cached. -/
def blockedStore : Store where
  path := "cache"
  place := some (.directory
    [(Store.fileName 5, .directory [] ⟨1⟩), (Store.fileName 6, .file (bytesOf "b.example") ⟨2⟩)] ⟨3⟩)

def callAt4 (operation : StoreOperation) (id : FilterId) : StoreCall where
  operation
  filter := { id, url := "http://a" : Filter }.setContent (bytesOf "a.example")
  faults := Faults.none
  now := ⟨4⟩

theorem unchanged_of_blockedSave :
    ((callAt4 .save 5).run blockedStore).result = .error (.io "cache/5.txt" .isADirectory) ∧
      ((callAt4 .save 5).run blockedStore).filter = (callAt4 .save 5).filter ∧
      ((callAt4 .save 5).run blockedStore).store.cached 6 =
        .ok (.file (bytesOf "b.example") ⟨2⟩) ∧
      ((callAt4 .load 7).run blockedStore).result = .error (.notCached "cache/7.txt") ∧
      ((callAt4 .remove 7).run blockedStore).store = blockedStore ∧
      ((callAt4 .touch 6).run blockedStore).filter =
        { (callAt4 .touch 6).filter with lastUpdated := some ⟨4⟩ } := by
  have hblocked : ((callAt4 .save 5).run blockedStore).result =
      .error (.io "cache/5.txt" .isADirectory) := by
    decide +kernel
  have hlacks : blockedStore.LacksFile none 7 :=
    .inr ⟨_, _, rfl, Option.isNone_iff_eq_none.mp (by decide +kernel)⟩
  have htouched : ((callAt4 .touch 6).run blockedStore).result = .ok () := by
    decide +kernel
  obtain ⟨hfilter, hcached⟩ := (unchanged_of_failed (callAt4 .save 5) blockedStore).1 _ hblocked
  obtain ⟨-, hload, -, -⟩ := unchanged_of_failed (callAt4 .load 7) blockedStore
  obtain ⟨-, -, hremove, -⟩ := unchanged_of_failed (callAt4 .remove 7) blockedStore
  obtain ⟨-, -, -, htouch⟩ := unchanged_of_failed (callAt4 .touch 6) blockedStore
  have hpath : blockedStore.filePath (callAt4 .load 7).filter = "cache/7.txt" := by
    decide +kernel
  refine ⟨hblocked, hfilter, hcached 6, ?_, ((hremove rfl).mpr hlacks).2, (htouch rfl htouched).1⟩
  rw [← hpath]
  exact (hload rfl).1.mpr hlacks

end StoreCall

end FilterLists
