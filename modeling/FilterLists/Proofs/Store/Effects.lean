import FilterLists.Proofs.Store.Entries

/-! What the operations of the store do to the cached files. A save either puts the whole content
under the name of the filter or leaves every cached file alone, and no operation on one filter
reaches the file of another. -/
namespace FilterLists.Store

def isReplaceable : Except IoError Node → Bool
  | .ok (.file ..) => true
  | .ok (.directory ..) => false
  | .error e => e = .notFound

/-- The device refuses nothing that writing a file through a temporary one needs. -/
def allowsWriting (faults : Faults) (content : Bytes) : Bool :=
  (faults .create).isNone && (content.isEmpty || (faults .write).isNone) &&
    (faults .sync).isNone && (faults .rename).isNone

/-- A save of the filter succeeds: nothing is refused, and there is room for its file. -/
def accepts (s : Store) (faults : Faults) (f : Filter) : Bool :=
  (faults .makeDirectory).isNone && allowsWriting faults (f.content.getD []) &&
    isReplaceable (s.cached f.id)

def savedAt (faults : Faults) (now : Instant) : Option Instant :=
  if (faults .stat).isNone then some now else none

theorem cached_congr {s t : Store} (h : s.place = t.place) (id : FilterId) :
    s.cached id = t.cached id := by
  simp only [cached, entry, h]

theorem makeDirectory_of_ok {s ready : Store} {now : Instant}
    (h : s.makeDirectory now = .ok ready) : ready.IsOpen ∧ ∀ id, ready.cached id = s.cached id := by
  rcases s.place_cases with hplace | ⟨content, t, hplace⟩ | ⟨entries, t, hplace⟩
  · simp only [makeDirectory, hplace] at h
    cases h
    refine ⟨⟨[], now, rfl⟩, fun id => ?_⟩
    have hsize := utf8ByteSize_fileName_le id
    have hn : ¬ Path.maxNameBytes < (fileName id).utf8ByteSize := by omega
    simp [cached, entry, hplace, Node.child, hn]
  · simp only [makeDirectory, hplace] at h
    cases h
  · simp only [makeDirectory, hplace] at h
    cases h
    exact ⟨⟨entries, t, hplace⟩, fun id => rfl⟩

/-- A regular file in the place of the directory hides every cached file. -/
theorem not_isReplaceable_of_makeDirectory {s : Store} {now : Instant} {e : IoError}
    (h : s.makeDirectory now = .error e) (id : FilterId) : isReplaceable (s.cached id) = false := by
  rcases s.place_cases with hplace | ⟨content, t, hplace⟩ | ⟨entries, t, hplace⟩
  · simp only [makeDirectory, hplace] at h
    cases h
  · simp [cached, entry, hplace, Node.child, isReplaceable]
  · simp only [makeDirectory, hplace] at h
    cases h

theorem create_of_isOpen {s : Store} (hopen : s.IsOpen) (now : Instant) (name : String) :
    s.create now name = .ok (s.put name (.file [] now)) := by
  obtain ⟨entries, t, hplace⟩ := hopen
  simp [create, hplace]

theorem append_of_entry {s : Store} {name : String} {content : Bytes} {t : Instant}
    (h : s.entry name = .ok (.file content t)) (now : Instant) (bytes : Bytes) :
    s.append now name bytes = s.put name (.file (content ++ bytes) now) := by
  simp only [append, h]

theorem rename_of_entry {s : Store} {temp name : String} {node : Node}
    (hname : name.utf8ByteSize ≤ Path.maxNameBytes) (h : s.entry temp = .ok node) :
    (isReplaceable (s.entry name) = true ∧
        s.rename temp name = .ok ((s.erase temp).put name node)) ∨
      (isReplaceable (s.entry name) = false ∧ s.rename temp name = .error .isADirectory) := by
  unfold rename
  rw [h]
  cases hn : s.entry name with
  | ok found =>
    cases found with
    | file content t => exact .inl ⟨rfl, rfl⟩
    | directory entries t => exact .inr ⟨rfl, rfl⟩
  | error e =>
    have he := (isOpen_of_entry h).eq_notFound hname hn
    exact .inl ⟨by simp [isReplaceable, he], rfl⟩

/-- What a save writes is complete under the name of the cached file, or else only the temporary
file has changed. -/
theorem writeThrough_of_isOpen {s : Store} (hopen : s.IsOpen) (faults : Faults) (now : Instant)
    {temp name : String} (content : Bytes) (hne : name ≠ temp)
    (htemp : temp.utf8ByteSize ≤ Path.maxNameBytes)
    (hname : name.utf8ByteSize ≤ Path.maxNameBytes) :
    ((allowsWriting faults content && isReplaceable (s.entry name)) = true ∧
      ∃ done, s.writeThrough faults now temp name content = (done, .ok ()) ∧
        done.entry name = .ok (.file content now) ∧
        ∀ other, other ≠ name → other ≠ temp → done.entry other = s.entry other) ∨
    ((allowsWriting faults content && isReplaceable (s.entry name)) = false ∧
      ∃ stopped e, s.writeThrough faults now temp name content = (stopped, .error e) ∧
        ∀ other, other ≠ temp → stopped.entry other = s.entry other) := by
  -- the directory with the empty file, and then with the whole one
  let created := s.put temp (.file [] now)
  let written := created.put temp (.file content now)
  have hcreate : s.create now temp = .ok created := create_of_isOpen hopen now temp
  have hcreated : ∀ other, other ≠ temp → created.entry other = s.entry other :=
    fun other h => s.entry_put_of_ne _ h
  have happend : created.append now temp content = written :=
    append_of_entry (hopen.entry_put_self (.file [] now) htemp) now content
  have hwritten : ∀ other, other ≠ temp → written.entry other = s.entry other :=
    fun other h => (created.entry_put_of_ne _ h).trans (hcreated other h)
  have hfull : written.entry temp = .ok (.file content now) :=
    (hopen.put temp _).entry_put_self _ htemp
  have hrename := rename_of_entry hname hfull
  rw [hwritten name hne] at hrename
  unfold writeThrough allowsWriting
  rw [hcreate]
  cases hc : faults .create with
  | some e => exact .inr ⟨by simp, s, e, by simp [unlessRefused], fun other _ => rfl⟩
  | none =>
    simp only [unlessRefused, happend]
    cases hw : (if content.isEmpty then none else faults .write) with
    | some e =>
      have hstop : (content.isEmpty || (faults .write).isNone) = false := by
        split at hw <;> simp_all
      exact .inr ⟨by simp [hstop], created, e, rfl, hcreated⟩
    | none =>
      have hgo : (content.isEmpty || (faults .write).isNone) = true := by
        split at hw <;> simp_all
      cases hs : faults .sync with
      | some e => exact .inr ⟨by simp, written, e, rfl, hwritten⟩
      | none =>
        cases hr : faults .rename with
        | some e => exact .inr ⟨by simp, written, e, rfl, hwritten⟩
        | none =>
          rcases hrename with ⟨hroom, hmoved⟩ | ⟨hroom, hmoved⟩
          · refine .inl ⟨by simp [hgo, hroom], (written.erase temp).put name (.file content now),
              by simp only [hmoved], ?_, fun other hother htmp => ?_⟩
            · exact (((hopen.put temp _).put temp _).erase temp).entry_put_self _ hname
            · rw [entry_put_of_ne _ _ hother, entry_erase_of_ne _ htmp, hwritten other htmp]
          · exact .inr ⟨by simp [hroom], written, .isADirectory, by simp only [hmoved], hwritten⟩

theorem lastModified_eq (s : Store) (faults : Faults) (f : Filter) :
    s.lastModified faults f =
      if (faults .stat).isNone then (s.cached f.id).toOption.map Node.modified else none := by
  unfold lastModified unlessRefused cached
  cases faults .stat with
  | some e => rfl
  | none => cases s.entry (fileName f.id) <;> rfl

theorem save_cases (s : Store) (faults : Faults) (now : Instant) (f : Filter) :
    (s.accepts faults f = true ∧ ∃ done,
      s.save faults now f = (done, .ok { f with lastUpdated := savedAt faults now }) ∧
        done.cached f.id = .ok (.file (f.content.getD []) now) ∧
        ∀ id, id ≠ f.id → done.cached id = s.cached id) ∨
    (s.accepts faults f = false ∧ ∃ stopped e, s.save faults now f = (stopped, .error e) ∧
        ∀ id, stopped.cached id = s.cached id) := by
  unfold save ensureDirectory accepts
  cases hd : faults .makeDirectory with
  | some e => exact .inr ⟨by simp, s, .io s.path e, rfl, fun id => rfl⟩
  | none =>
    cases hm : s.makeDirectory now with
    | error e =>
      have hroom := not_isReplaceable_of_makeDirectory hm f.id
      exact .inr ⟨by simp [hroom], s, .io s.path e, rfl, fun id => rfl⟩
    | ok ready =>
      obtain ⟨hopen, hready⟩ := makeDirectory_of_ok hm
      let begun : Store := { ready with saves := ready.saves + 1 }
      let temp := tempName f.id ready.process ready.saves
      have hbegun : ∀ id, begun.cached id = s.cached id := fun id =>
        (cached_congr rfl id).trans (hready id)
      have hwrite := writeThrough_of_isOpen (s := begun) hopen faults now (f.content.getD [])
        (fileName_ne_tempName f.id f.id ready.process ready.saves)
        (utf8ByteSize_tempName_le f.id ready.process ready.saves) (utf8ByteSize_fileName_le f.id)
      rw [show begun.entry (fileName f.id) = s.cached f.id from hbegun f.id] at hwrite
      simp only [unlessRefused, Except.mapError]
      rcases hwrite with ⟨hgo, done, heq, hown, hframe⟩ | ⟨hstop, stopped, e, heq, hframe⟩
      · refine .inl ⟨by simpa using hgo, done, ?_, hown, fun id hid => ?_⟩
        · have htime : done.lastModified faults f = savedAt faults now := by
            rw [lastModified_eq, cached, hown]
            rfl
          simp only [begun] at heq
          rw [heq, ← htime]
        · have hother := hframe (fileName id) (fun h => hid (fileName_injective h))
            (fileName_ne_tempName id f.id ready.process ready.saves)
          exact hother.trans (hbegun id)
      · refine .inr ⟨by simpa using hstop, stopped.discard faults temp, .io (s.filePath f) e, ?_,
          fun id => ?_⟩
        · simp only [begun] at heq
          rw [heq]
        · have hother := (hframe (fileName id)
            (fileName_ne_tempName id f.id ready.process ready.saves)).trans (hbegun id)
          unfold discard
          split
          · exact (cached_erase_temp stopped id f.id ready.process ready.saves).trans hother
          · exact hother

theorem exists_saved_of_accepts {s : Store} {faults : Faults} {f : Filter}
    (h : s.accepts faults f = true) (now : Instant) :
    ∃ saved, (s.save faults now f).2 = .ok saved := by
  rcases s.save_cases faults now f with ⟨-, done, heq, -⟩ | ⟨hrefused, -⟩
  · exact ⟨_, congrArg Prod.snd heq⟩
  · rw [h] at hrefused
    cases hrefused

theorem touch_cases (s : Store) (faults : Faults) (now : Instant) (f : Filter) :
    (∃ content t, s.cached f.id = .ok (.file content t) ∧ faults .touch = none ∧
      s.touch faults now f =
        (s.put (fileName f.id) (.file content now), .ok { f with lastUpdated := some now })) ∨
    (∃ e, s.touch faults now f = (s, .error e)) := by
  unfold touch cached
  cases faults .touch with
  | some e => exact .inr ⟨_, rfl⟩
  | none =>
    cases s.entry (fileName f.id) with
    | error e => exact .inr ⟨_, rfl⟩
    | ok node =>
      cases node with
      | file content t => exact .inl ⟨content, t, rfl, rfl, rfl⟩
      | directory entries t => exact .inr ⟨_, rfl⟩

theorem load_of_read_error {s : Store} {faults : Faults} {f : Filter} {e : IoError}
    (h : s.read faults (fileName f.id) = .error e) : ∃ e, s.load faults f = .error e := by
  unfold load
  rw [h]
  cases e <;> exact ⟨_, rfl⟩

theorem load_cases (s : Store) (faults : Faults) (f : Filter) :
    (∃ content t, s.cached f.id = .ok (.file content t) ∧
      s.load faults f =
        .ok { f.setContent content with lastUpdated := s.lastModified faults f }) ∨
    (∃ e, s.load faults f = .error e) := by
  cases hr : s.read faults (fileName f.id) with
  | error e => exact .inr (load_of_read_error hr)
  | ok content =>
    have hfile : ∃ t, s.entry (fileName f.id) = .ok (.file content t) := by
      unfold read at hr
      cases hf : faults .read with
      | some e => simp [hf, unlessRefused] at hr
      | none =>
        simp only [hf, unlessRefused] at hr
        cases hentry : s.entry (fileName f.id) with
        | error e => simp [hentry] at hr
        | ok node =>
          cases node with
          | directory entries t => simp [hentry] at hr
          | file found t =>
            simp only [hentry, Except.ok.injEq] at hr
            exact ⟨t, by rw [hr]⟩
    obtain ⟨t, hentry⟩ := hfile
    exact .inl ⟨content, t, hentry, by simp only [load, hr]⟩

theorem remove_cached_of_ne (s : Store) (faults : Faults) (f : Filter) {id : FilterId}
    (h : id ≠ f.id) : (s.remove faults f).1.cached id = s.cached id := by
  unfold remove
  split
  · exact s.cached_erase_of_ne h
  · rfl
  · rfl
  · rfl

end FilterLists.Store
