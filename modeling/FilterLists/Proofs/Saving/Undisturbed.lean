import FilterLists.Proofs.Saving.Step

/-! A save that nothing comes between. Its steps come to the one operation that the rest of the
program knows. -/
namespace FilterLists

theorem Entries.put_put (entries : Entries) (name : String) (node : Node) :
    put (put entries name node) name node = put entries name node := by
  have herase : erase (put entries name node) name = erase entries name := by
    simp [put, erase]
  rw [put, herase, put]

namespace Store

theorem mapEntries_path (s : Store) (f : Entries → Entries) : (s.mapEntries f).path = s.path := by
  unfold mapEntries
  split <;> rfl

theorem append_path (s : Store) (now : Instant) (name : String) (bytes : Bytes) :
    (s.append now name bytes).path = s.path := by
  unfold append
  split
  · exact s.mapEntries_path _
  · rfl

theorem ensureDirectory_eq_ok {s ready : Store} {faults : Faults} {now : Instant}
    (h : s.ensureDirectory faults now = .ok ready) : ready.IsOpen ∧ ready.path = s.path := by
  have hmade : s.makeDirectory now = .ok ready := by
    unfold ensureDirectory at h
    cases hmade : unlessRefused (faults .makeDirectory) (s.makeDirectory now) with
    | error e =>
      rw [hmade] at h
      cases h
    | ok made =>
      rw [hmade] at h
      cases h
      exact of_unlessRefused hmade
  refine ⟨(makeDirectory_of_ok hmade).1, ?_⟩
  unfold makeDirectory at hmade
  split at hmade <;> cases hmade <;> rfl

/-- A file that was just made is as if an empty text had been written to it. -/
theorem append_nil_of_put {s : Store} (hopen : s.IsOpen) {now : Instant} {temp : String}
    (htemp : temp.utf8ByteSize ≤ Path.maxNameBytes) :
    (s.put temp (.file [] now)).append now temp [] = s.put temp (.file [] now) := by
  rw [append_of_entry (hopen.entry_put_self _ htemp), List.append_nil]
  obtain ⟨entries, t, hplace⟩ := hopen
  simp [put, mapEntries, hplace, Entries.put_put]

end Store

namespace Saving
variable {v w : Saving} {faults : Faults} {now : Instant} {s t : Store} {f : Filter} {n : Nat}
  {temp : String}

theorem proceed_of_step (h : v.step faults now (v.filter.content.getD []).length s = (t, w)) :
    v.proceed faults now (n + 1) s = w.proceed faults now n t := by
  have hfilter : w.filter = v.filter := by
    have hstep := isStep_step v faults now (v.filter.content.getD []).length s
    rw [h] at hstep
    exact hstep.filter_eq
  induction n with
  | zero => exact h
  | succ n ih =>
    unfold proceed at ih ⊢
    rw [hfilter] at ih ⊢
    rw [Nat.repeat, ih]
    rfl

theorem proceed_ended (result : Except Error Filter) (n : Nat) :
    (⟨f, .ended result⟩ : Saving).proceed faults now n s = (s, ⟨f, .ended result⟩) := by
  induction n with
  | zero => rfl
  | succ n ih => rw [proceed_of_step (t := s) (w := ⟨f, .ended result⟩) rfl, ih]

theorem proceed_discarding (e : IoError) (n : Nat) :
    (⟨f, .discarding temp e⟩ : Saving).proceed faults now (n + 1) s =
      (s.discard faults temp, ⟨f, .ended (.error (.io (s.filePath f) e))⟩) := by
  rw [proceed_of_step rfl]
  exact proceed_ended _ n

theorem proceed_renaming (n : Nat) :
    (⟨f, .renaming temp⟩ : Saving).proceed faults now (n + 2) s =
      match Store.unlessRefused (faults .rename) (s.rename temp (Store.fileName f.id)) with
      | .ok renamed =>
        (renamed, ⟨f, .ended (.ok { f with lastUpdated := renamed.lastModified faults f })⟩)
      | .error e => (s.discard faults temp, ⟨f, .ended (.error (.io (s.filePath f) e))⟩) := by
  cases hrenamed : Store.unlessRefused (faults .rename)
      (s.rename temp (Store.fileName f.id)) with
  | ok renamed =>
    have hstep : (⟨f, .renaming temp⟩ : Saving).step faults now (f.content.getD []).length s =
        (renamed, ⟨f, .dating⟩) := by
      simp only [step, hrenamed, goTo]
    rw [proceed_of_step hstep, proceed_of_step rfl]
    exact proceed_ended _ n
  | error e =>
    have hstep : (⟨f, .renaming temp⟩ : Saving).step faults now (f.content.getD []).length s =
        (s, ⟨f, .discarding temp e⟩) := by
      simp only [step, hrenamed, goTo]
    rw [proceed_of_step hstep]
    exact proceed_discarding e n

/-- The end of a save whose temporary file has all bytes. -/
theorem proceed_written (n : Nat) :
    (⟨f, .writing temp []⟩ : Saving).proceed faults now (n + 4) s =
      match Store.unlessRefused (faults .sync) (Store.unlessRefused (faults .rename)
        (s.rename temp (Store.fileName f.id))) with
      | .ok renamed =>
        (renamed, ⟨f, .ended (.ok { f with lastUpdated := renamed.lastModified faults f })⟩)
      | .error e => (s.discard faults temp, ⟨f, .ended (.error (.io (s.filePath f) e))⟩) := by
  rw [proceed_of_step (w := ⟨f, .syncing temp⟩) (t := s) rfl]
  cases hsync : faults .sync with
  | some e =>
    have hstep : (⟨f, .syncing temp⟩ : Saving).step faults now (f.content.getD []).length s =
        (s, ⟨f, .discarding temp e⟩) := by
      simp only [step, hsync, goTo]
    rw [proceed_of_step hstep]
    exact proceed_discarding e (n + 1)
  | none =>
    have hstep : (⟨f, .syncing temp⟩ : Saving).step faults now (f.content.getD []).length s =
        (s, ⟨f, .renaming temp⟩) := by
      simp only [step, hsync, goTo]
    rw [proceed_of_step hstep]
    exact proceed_renaming n

/-- A save from its temporary file, which was just made, to its end. -/
theorem proceed_writing (hopen : s.IsOpen) (htemp : temp.utf8ByteSize ≤ Path.maxNameBytes)
    (n : Nat) :
    (⟨f, .writing temp (f.content.getD [])⟩ : Saving).proceed faults now (n + 5)
        (s.put temp (.file [] now)) =
      match (if (f.content.getD []).isEmpty then none else faults .write) with
      | some e => ((s.put temp (.file [] now)).discard faults temp,
          ⟨f, .ended (.error (.io (s.filePath f) e))⟩)
      | none =>
        let written := (s.put temp (.file [] now)).append now temp (f.content.getD [])
        match Store.unlessRefused (faults .sync) (Store.unlessRefused (faults .rename)
          (written.rename temp (Store.fileName f.id))) with
        | .ok renamed =>
          (renamed, ⟨f, .ended (.ok { f with lastUpdated := renamed.lastModified faults f })⟩)
        | .error e => (written.discard faults temp,
            ⟨f, .ended (.error (.io (s.filePath f) e))⟩) := by
  have hmade : (s.put temp (.file [] now)).filePath f = s.filePath f :=
    congrArg (Path.join · (Store.fileName f.id)) (s.mapEntries_path _)
  cases hcontent : f.content.getD [] with
  | nil =>
    simp only [List.isEmpty_nil, if_true]
    rw [Store.append_nil_of_put hopen htemp, proceed_written (n + 1), hmade]
  | cons b rest =>
    simp only [List.isEmpty_cons, Bool.false_eq_true, if_false]
    cases hwrite : faults .write with
    | some e =>
      have hstep : (⟨f, .writing temp (b :: rest)⟩ : Saving).step faults now
          (f.content.getD []).length (s.put temp (.file [] now)) =
            (s.put temp (.file [] now), ⟨f, .discarding temp e⟩) := by
        simp only [step, hwrite, goTo]
      rw [proceed_of_step hstep, proceed_discarding e (n + 3), hmade]
    | none =>
      have hall : rest.length ≤ (f.content.getD []).length := by
        rw [hcontent]
        exact Nat.le_succ _
      have hstep : (⟨f, .writing temp (b :: rest)⟩ : Saving).step faults now
          (f.content.getD []).length (s.put temp (.file [] now)) =
            ((s.put temp (.file [] now)).append now temp (b :: rest), ⟨f, .writing temp []⟩) := by
        simp only [step, hwrite, goTo, List.take_of_length_le hall, List.drop_of_length_le hall]
      have hwritten : ((s.put temp (.file [] now)).append now temp (b :: rest)).filePath f =
          s.filePath f :=
        (congrArg (Path.join · (Store.fileName f.id)) (Store.append_path _ _ _ _)).trans hmade
      rw [proceed_of_step hstep, proceed_written n, hwritten]

/-- Eight steps are enough for a save whose writes take all bytes, and they make one operation. -/
theorem proceed_eq_save (s : Store) (faults : Faults) (now : Instant) (f : Filter) :
    ({ filter := f } : Saving).proceed faults now 8 s =
      ((s.save faults now f).1, ⟨f, .ended (s.save faults now f).2⟩) := by
  unfold Store.save
  cases hready : s.ensureDirectory faults now with
  | error e =>
    have hstep : ({ filter := f } : Saving).step faults now (f.content.getD []).length s =
        (s, ⟨f, .ended (.error e)⟩) := by
      simp only [step, hready, goTo]
    rw [proceed_of_step hstep]
    exact proceed_ended _ 7
  | ok ready =>
    have hstep : ({ filter := f } : Saving).step faults now (f.content.getD []).length s =
        (ready, ⟨f, .numbering⟩) := by
      simp only [step, hready, goTo]
    obtain ⟨hopen, hpath⟩ := Store.ensureDirectory_eq_ok hready
    -- the number is taken before the file is made, also when that fails
    let temp := Store.tempName f.id ready.process ready.saves
    let begun : Store := { ready with saves := ready.saves + 1 }
    have hname : begun.filePath f = s.filePath f :=
      congrArg (Path.join · (Store.fileName f.id)) hpath
    have htemp : temp.utf8ByteSize ≤ Path.maxNameBytes :=
      Store.utf8ByteSize_tempName_le f.id ready.process ready.saves
    rw [proceed_of_step hstep, proceed_of_step (t := begun) (w := ⟨f, .creating temp⟩) rfl]
    cases hcreated : Store.unlessRefused (faults .create) (begun.create now temp) with
    | error e =>
      have hcreate : (⟨f, .creating temp⟩ : Saving).step faults now
          (f.content.getD []).length begun =
          (begun, ⟨f, .discarding temp e⟩) := by
        simp only [step, hcreated, goTo]
      rw [proceed_of_step hcreate, proceed_discarding e 4, hname]
      simp only [Store.writeThrough, begun, temp] at hcreated ⊢
      rw [hcreated]
    | ok created =>
      have hcreate : (⟨f, .creating temp⟩ : Saving).step faults now
          (f.content.getD []).length begun =
          (created, ⟨f, .writing temp (f.content.getD [])⟩) := by
        simp only [step, hcreated, goTo]
      obtain rfl : begun.put temp (.file [] now) = created := by
        have hmade := Store.of_unlessRefused hcreated
        rw [Store.create_of_isOpen (s := begun) hopen] at hmade
        exact Except.ok.inj hmade
      rw [proceed_of_step hcreate, proceed_writing (s := begun) hopen htemp 0, hname]
      simp only [Store.writeThrough, begun, temp] at hcreated ⊢
      rw [hcreated]
      simp only
      cases (if (f.content.getD []).isEmpty then none else faults .write) with
      | some e => rfl
      | none =>
        simp only
        split <;> simp_all

end Saving

end FilterLists
