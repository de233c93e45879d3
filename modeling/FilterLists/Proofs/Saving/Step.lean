import FilterLists.Store.Saving
import FilterLists.Proofs.Store.Effects

/-! What one step of a save can do. It reaches its own temporary file, and the cached file of its
filter once, when the temporary file holds the whole content. -/
namespace FilterLists

namespace Store

def IsTempName (name : String) : Prop :=
  ∃ id process saves, name = tempName id process saves

theorem IsTempName.size_le {name : String} (h : IsTempName name) :
    name.utf8ByteSize ≤ Path.maxNameBytes := by
  obtain ⟨id, process, saves, rfl⟩ := h
  exact utf8ByteSize_tempName_le id process saves

theorem IsTempName.fileName_ne {name : String} (h : IsTempName name) (id : FilterId) :
    fileName id ≠ name := by
  obtain ⟨other, process, saves, rfl⟩ := h
  exact fileName_ne_tempName id other process saves

theorem makeDirectory_frame {s ready : Store} {now : Instant}
    (h : s.makeDirectory now = .ok ready) :
    ready.IsOpen ∧ ready.saves = s.saves ∧
      ∀ name : String, name.utf8ByteSize ≤ Path.maxNameBytes → ready.entry name = s.entry name := by
  refine ⟨(makeDirectory_of_ok h).1, ?_⟩
  rcases s.place_cases with hplace | ⟨content, t, hplace⟩ | ⟨entries, t, hplace⟩
  · simp only [makeDirectory, hplace] at h
    cases h
    refine ⟨rfl, fun name hsize => ?_⟩
    have hn : ¬ Path.maxNameBytes < name.utf8ByteSize := by omega
    simp [entry, hplace, Node.child, hn]
  · simp only [makeDirectory, hplace] at h
    cases h
  · simp only [makeDirectory, hplace] at h
    cases h
    exact ⟨rfl, fun _ _ => rfl⟩

theorem append_frame (s : Store) (now : Instant) (name : String) (bytes : Bytes) :
    (s.append now name bytes).saves = s.saves ∧
      (s.IsOpen → (s.append now name bytes).IsOpen) ∧
      ∀ other, other ≠ name → (s.append now name bytes).entry other = s.entry other := by
  unfold append
  split
  · exact ⟨s.mapEntries_saves _, fun hopen => hopen.put name _, fun _ h => s.entry_put_of_ne _ h⟩
  · exact ⟨rfl, id, fun _ _ => rfl⟩

theorem discard_frame (s : Store) (faults : Faults) (name : String) :
    (s.discard faults name).saves = s.saves ∧
      (s.IsOpen → (s.discard faults name).IsOpen) ∧
      ∀ other, other ≠ name → (s.discard faults name).entry other = s.entry other := by
  unfold discard
  split
  · exact ⟨s.mapEntries_saves _, fun hopen => hopen.erase name, fun _ h => s.entry_erase_of_ne h⟩
  · exact ⟨rfl, id, fun _ _ => rfl⟩

theorem rename_eq_ok {s renamed : Store} {temp name : String}
    (h : s.rename temp name = .ok renamed) :
    ∃ node, s.entry temp = .ok node ∧ renamed = (s.erase temp).put name node := by
  unfold rename at h
  cases hnode : s.entry temp with
  | error e =>
    rw [hnode] at h
    cases h
  | ok node =>
    refine ⟨node, rfl, ?_⟩
    rw [hnode] at h
    cases hname : s.entry name with
    | error e =>
      rw [hname] at h
      exact (Except.ok.inj h).symm
    | ok found =>
      rw [hname] at h
      cases found with
      | file content t => exact (Except.ok.inj h).symm
      | directory entries t => cases h

theorem of_unlessRefused {α : Type} {fault : Option IoError} {result : Except IoError α} {a : α}
    (h : unlessRefused fault result = .ok a) : result = .ok a := by
  unfold unlessRefused at h
  split at h
  · cases h
  · exact h

end Store

namespace Saving
variable {faults : Faults} {now : Instant} {s : Store} {v : Saving} {next : Store × Saving}

def content (v : Saving) : Bytes :=
  v.filter.content.getD []

def IsUnderWay (v : Saving) : Prop :=
  match v.phase with
  | .makingDirectory | .ended _ => False
  | _ => True

def isUnnumbered (v : Saving) : Bool :=
  match v.phase with
  | .makingDirectory | .numbering => true
  | _ => false

/-- The temporary file that is being filled and the bytes that it still lacks. -/
def lacking? (v : Saving) : Option (String × Bytes) :=
  match v.phase with
  | .writing temp rest => some (temp, rest)
  | .syncing temp | .renaming temp => some (temp, [])
  | _ => none

theorem isUnderWay_of_temp {temp : String} (h : v.temp? = some temp) : v.IsUnderWay := by
  unfold temp? at h
  unfold IsUnderWay
  split at h <;> simp_all

theorem temp_of_lacking {temp : String} {rest : Bytes} (h : v.lacking? = some (temp, rest)) :
    v.temp? = some temp := by
  unfold lacking? at h
  unfold temp?
  split at h <;> simp_all

/-- What a save relies on between two of its steps. -/
structure Holds (s : Store) (v : Saving) : Prop where
  named : ∀ temp ∈ v.temp?, Store.IsTempName temp
  ready : v.IsUnderWay → s.IsOpen
  file : ∀ temp rest, v.lacking? = some (temp, rest) →
    ∃ written t, s.entry temp = .ok (.file written t) ∧ written ++ rest = v.content

theorem Holds.mono (h : v.Holds s) {t : Store} (hopen : s.IsOpen → t.IsOpen)
    (hentry : ∀ temp ∈ v.temp?, t.entry temp = s.entry temp) : v.Holds t := by
  refine ⟨h.named, fun hway => hopen (h.ready hway), fun temp rest hlacking => ?_⟩
  rw [hentry temp (temp_of_lacking hlacking)]
  exact h.file temp rest hlacking

theorem Holds.goTo {phase : SavePhase} {temp : String} (h : v.Holds s) (htemp : v.temp? = some temp)
    (hkept : (v.goTo phase).temp? = some temp)
    (hlacking : (v.goTo phase).lacking? = none ∨ (v.goTo phase).lacking? = v.lacking?) :
    (v.goTo phase).Holds s := by
  refine ⟨fun other hother => ?_, fun _ => h.ready (isUnderWay_of_temp htemp),
    fun other rest hother => ?_⟩
  · rw [hkept, ← htemp] at hother
    exact h.named other hother
  · rcases hlacking with hnone | hsame
    · rw [hnone] at hother
      cases hother
    · rw [hsame] at hother
      exact h.file other rest hother

/-- What a step can do to the store and to its save. -/
inductive IsStep (faults : Faults) (now : Instant) (s : Store) (v : Saving) : Store × Saving → Prop
  | opens {ready : Store} (hphase : v.phase = .makingDirectory)
      (hready : s.makeDirectory now = .ok ready) : IsStep faults now s v (ready, v.goTo .numbering)
  | fails {e : Error} (hphase : v.phase = .makingDirectory) :
      IsStep faults now s v (s, v.goTo (.ended (.error e)))
  | numbers (hphase : v.phase = .numbering) :
      IsStep faults now s v
        ({ s with saves := s.saves + 1 },
          v.goTo (.creating (Store.tempName v.filter.id s.process s.saves)))
  | creates {temp : String} (hphase : v.phase = .creating temp) (hopen : s.IsOpen) :
      IsStep faults now s v (s.put temp (.file [] now), v.goTo (.writing temp v.content))
  | writes {temp : String} {chunk rest : Bytes} (hphase : v.phase = .writing temp (chunk ++ rest)) :
      IsStep faults now s v (s.append now temp chunk, v.goTo (.writing temp rest))
  | finishes {temp : String} (hphase : v.phase = .writing temp []) :
      IsStep faults now s v (s, v.goTo (.syncing temp))
  | syncs {temp : String} (hphase : v.phase = .syncing temp) :
      IsStep faults now s v (s, v.goTo (.renaming temp))
  | renames {temp : String} {renamed : Store} (hphase : v.phase = .renaming temp)
      (hrenamed : s.rename temp (Store.fileName v.filter.id) = .ok renamed) :
      IsStep faults now s v (renamed, v.goTo .dating)
  | dates {t : Option Instant} (hphase : v.phase = .dating) :
      IsStep faults now s v (s, v.goTo (.ended (.ok { v.filter with lastUpdated := t })))
  | abandons {temp : String} {cause : IoError} (htemp : v.temp? = some temp) :
      IsStep faults now s v (s, v.goTo (.discarding temp cause))
  | discards {temp : String} {cause : IoError} {e : Error}
      (hphase : v.phase = .discarding temp cause) :
      IsStep faults now s v (s.discard faults temp, v.goTo (.ended (.error e)))
  | rests {result : Except Error Filter} (hphase : v.phase = .ended result) :
      IsStep faults now s v (s, v)

theorem isStep_step (v : Saving) (faults : Faults) (now : Instant) (more : Nat) (s : Store) :
    IsStep faults now s v (v.step faults now more s) := by
  unfold step
  match hphase : v.phase with
  | .makingDirectory =>
    simp only [Store.ensureDirectory]
    cases faults .makeDirectory with
    | some e => exact .fails hphase
    | none =>
      cases hready : s.makeDirectory now with
      | ok ready => exact .opens hphase hready
      | error e => exact .fails hphase
  | .numbering => exact .numbers hphase
  | .creating temp =>
    have htemp : v.temp? = some temp := by rw [temp?, hphase]
    cases faults .create with
    | some e =>
      simp only [Store.unlessRefused]
      exact .abandons htemp
    | none =>
      simp only [Store.unlessRefused, Store.create]
      cases hplace : s.place with
      | none => exact .abandons htemp
      | some node =>
        cases node with
        | file content t => exact .abandons htemp
        | directory entries t => exact .creates hphase ⟨entries, t, hplace⟩
  | .writing temp [] => exact .finishes hphase
  | .writing temp (b :: rest) =>
    have htemp : v.temp? = some temp := by rw [temp?, hphase]
    cases faults .write with
    | some e =>
      simp only
      exact .abandons htemp
    | none =>
      simp only
      -- a write that is not refused takes at least one byte
      have hparts : v.phase = .writing temp ((b :: rest.take more) ++ rest.drop more) := by
        rw [hphase, List.cons_append, List.take_append_drop]
      exact .writes hparts
  | .syncing temp =>
    have htemp : v.temp? = some temp := by rw [temp?, hphase]
    cases faults .sync with
    | some e =>
      simp only
      exact .abandons htemp
    | none =>
      simp only
      exact .syncs hphase
  | .renaming temp =>
    have htemp : v.temp? = some temp := by rw [temp?, hphase]
    -- a rename that is not refused can still find a directory in its way
    cases hrenamed : Store.unlessRefused (faults .rename)
        (s.rename temp (Store.fileName v.filter.id)) with
    | error e =>
      simp only [hrenamed]
      exact .abandons htemp
    | ok renamed =>
      simp only [hrenamed]
      exact .renames hphase (Store.of_unlessRefused hrenamed)
  | .dating => exact .dates hphase
  | .discarding temp cause => exact .discards hphase
  | .ended result => exact .rests hphase

namespace IsStep

theorem filter_eq (h : IsStep faults now s v next) : next.2.filter = v.filter := by
  cases h <;> rfl

theorem numbering_cases (h : IsStep faults now s v next) :
    (v.phase = .numbering ∧ next.1.saves = s.saves + 1 ∧
      next.2 = v.goTo (.creating (Store.tempName v.filter.id s.process s.saves))) ∨
    (next.1.saves = s.saves ∧ (next.2.temp? = v.temp? ∨ next.2.temp? = none) ∧
      (next.2.isUnnumbered = true → v.isUnnumbered = true)) := by
  cases h with
  | opens hphase hready =>
    exact .inr ⟨(Store.makeDirectory_frame hready).2.1, .inr rfl,
      fun _ => by rw [isUnnumbered, hphase]⟩
  | fails => exact .inr ⟨rfl, .inr rfl, nofun⟩
  | numbers hphase => exact .inl ⟨hphase, rfl, rfl⟩
  | creates hphase =>
    exact .inr ⟨s.mapEntries_saves _, .inl (by rw [temp?, temp?, hphase]; rfl), nofun⟩
  | writes hphase =>
    exact .inr ⟨(s.append_frame now _ _).1, .inl (by rw [temp?, temp?, hphase]; rfl), nofun⟩
  | finishes hphase => exact .inr ⟨rfl, .inl (by rw [temp?, temp?, hphase]; rfl), nofun⟩
  | syncs hphase => exact .inr ⟨rfl, .inl (by rw [temp?, temp?, hphase]; rfl), nofun⟩
  | renames hphase hrenamed =>
    obtain ⟨node, -, rfl⟩ := Store.rename_eq_ok hrenamed
    exact .inr ⟨((s.erase _).mapEntries_saves _).trans (s.mapEntries_saves _), .inr rfl, nofun⟩
  | dates => exact .inr ⟨rfl, .inr rfl, nofun⟩
  | abandons htemp => exact .inr ⟨rfl, .inl htemp.symm, nofun⟩
  | discards => exact .inr ⟨(s.discard_frame faults _).1, .inr rfl, nofun⟩
  | rests => exact .inr ⟨rfl, .inl rfl, id⟩

theorem isOpen (h : IsStep faults now s v next) (hopen : s.IsOpen) : next.1.IsOpen := by
  cases h with
  | opens _ hready => exact (Store.makeDirectory_frame hready).1
  | creates => exact hopen.put _ _
  | writes => exact (s.append_frame now _ _).2.1 hopen
  | renames _ hrenamed =>
    obtain ⟨node, -, rfl⟩ := Store.rename_eq_ok hrenamed
    exact (hopen.erase _).put _ _
  | discards => exact (s.discard_frame faults _).2.1 hopen
  | _ => exact hopen

/-- A step reaches the temporary file of its save and the cached file of its filter, and nothing
else. -/
theorem entry_eq (h : IsStep faults now s v next) {name : String}
    (hsize : name.utf8ByteSize ≤ Path.maxNameBytes) (hfile : name ≠ Store.fileName v.filter.id)
    (htemp : v.temp? ≠ some name) : next.1.entry name = s.entry name := by
  have hne : ∀ {temp : String}, v.temp? = some temp → name ≠ temp := by
    rintro temp hown rfl
    exact htemp hown
  cases h with
  | opens _ hready => exact (Store.makeDirectory_frame hready).2.2 name hsize
  | creates hphase => exact s.entry_put_of_ne _ (hne (by rw [temp?, hphase]))
  | writes hphase => exact (s.append_frame now _ _).2.2 name (hne (by rw [temp?, hphase]))
  | renames hphase hrenamed =>
    obtain ⟨node, -, rfl⟩ := Store.rename_eq_ok hrenamed
    rw [Store.entry_put_of_ne _ _ hfile, s.entry_erase_of_ne (hne (by rw [temp?, hphase]))]
  | discards hphase => exact (s.discard_frame faults _).2.2 name (hne (by rw [temp?, hphase]))
  | _ => rfl

/-- A step keeps what its save relies on. -/
theorem holds (h : IsStep faults now s v next) (hv : v.Holds s) : next.2.Holds next.1 := by
  cases h with
  | opens _ hready => exact ⟨nofun, fun _ => (Store.makeDirectory_frame hready).1, nofun⟩
  | fails => exact ⟨nofun, nofun, nofun⟩
  | numbers hphase =>
    refine ⟨?_, fun _ => hv.ready (by rw [IsUnderWay, hphase]; trivial), nofun⟩
    rintro temp ⟨⟩
    exact ⟨_, _, _, rfl⟩
  | @creates temp hphase hopen =>
    have htemp : v.temp? = some temp := by rw [temp?, hphase]
    have hname := hv.named temp htemp
    refine ⟨?_, fun _ => hopen.put _ _, ?_⟩
    · rintro _ ⟨⟩
      exact hname
    · rintro _ _ ⟨⟩
      exact ⟨[], now, hopen.entry_put_self _ hname.size_le, List.nil_append _⟩
  | @writes temp chunk rest hphase =>
    have htemp : v.temp? = some temp := by rw [temp?, hphase]
    have hname := hv.named temp htemp
    obtain ⟨written, t, hfile, hwhole⟩ := hv.file temp (chunk ++ rest) (by rw [lacking?, hphase])
    have hopen := Store.isOpen_of_entry hfile
    rw [Store.append_of_entry hfile now chunk]
    refine ⟨?_, fun _ => hopen.put _ _, ?_⟩
    · rintro _ ⟨⟩
      exact hname
    · rintro _ _ ⟨⟩
      refine ⟨written ++ chunk, now, hopen.entry_put_self _ hname.size_le, ?_⟩
      rw [List.append_assoc]
      exact hwhole
  | finishes hphase =>
    exact hv.goTo (by rw [temp?, hphase]) rfl (.inr (by rw [lacking?, lacking?, hphase]; rfl))
  | syncs hphase =>
    exact hv.goTo (by rw [temp?, hphase]) rfl (.inr (by rw [lacking?, lacking?, hphase]; rfl))
  | renames hphase hrenamed =>
    obtain ⟨node, hnode, rfl⟩ := Store.rename_eq_ok hrenamed
    exact ⟨nofun, fun _ => ((Store.isOpen_of_entry hnode).erase _).put _ _, nofun⟩
  | dates => exact ⟨nofun, nofun, nofun⟩
  | abandons htemp => exact hv.goTo htemp rfl (.inl rfl)
  | discards => exact ⟨nofun, nofun, nofun⟩
  | rests => exact hv

end IsStep

end Saving

end FilterLists
