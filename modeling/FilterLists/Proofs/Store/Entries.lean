import FilterLists.Proofs.Store.Names

/-! What stands in the cache directory under a name, and how the changes of single entries show
there. A change of one name is not seen under another. -/
namespace FilterLists

namespace Entries

theorem lookup_erase_of_ne {name other : String} (h : other ≠ name) (entries : Entries) :
    (erase entries name).lookup other = entries.lookup other := by
  induction entries with
  | nil => rfl
  | cons entry rest ih =>
    obtain ⟨key, node⟩ := entry
    rw [erase] at ih ⊢
    by_cases hk : key = name
    · have hko : (other == key) = false := by simpa [hk] using h
      rw [List.filter_cons_of_neg (by simpa using hk), ih, List.lookup_cons, hko]
    · rw [List.filter_cons_of_pos (by simpa using hk), List.lookup_cons, List.lookup_cons, ih]

theorem lookup_erase_self (entries : Entries) (name : String) :
    (erase entries name).lookup name = none := by
  rw [List.lookup_eq_none_iff]
  intro entry hentry
  have hne : entry.1 ≠ name := by simpa using (List.mem_filter.mp hentry).2
  simpa using hne.symm

theorem lookup_put_self (entries : Entries) (name : String) (node : Node) :
    (put entries name node).lookup name = some node := by
  simp [put]

theorem lookup_put_of_ne {name other : String} (h : other ≠ name) (entries : Entries)
    (node : Node) : (put entries name node).lookup other = entries.lookup other := by
  have hb : (other == name) = false := by simpa using h
  simp [put, List.lookup_cons, hb, lookup_erase_of_ne h]

end Entries

namespace Store

def IsOpen (s : Store) : Prop :=
  ∃ entries t, s.place = some (.directory entries t)

/-- What stands in the place of the cached file of a filter. -/
def cached (s : Store) (id : FilterId) : Except IoError Node :=
  s.entry (fileName id)

theorem place_cases (s : Store) :
    s.place = none ∨ (∃ content t, s.place = some (.file content t)) ∨ s.IsOpen := by
  cases h : s.place with
  | none => exact .inl rfl
  | some node =>
    cases node with
    | file content t => exact .inr (.inl ⟨content, t, rfl⟩)
    | directory entries t => exact .inr (.inr ⟨entries, t, h⟩)

/-- Entries are changed in a directory. Without one nothing is. -/
theorem mapEntries_cases (s : Store) (f : Entries → Entries) :
    (∃ entries t, s.place = some (.directory entries t) ∧
        s.mapEntries f = { s with place := some (.directory (f entries) t) }) ∨
      (¬ s.IsOpen ∧ s.mapEntries f = s) := by
  rcases s.place_cases with hplace | ⟨content, t, hplace⟩ | ⟨entries, t, hplace⟩
  · exact .inr ⟨by simp [IsOpen, hplace], by simp [mapEntries, hplace]⟩
  · exact .inr ⟨by simp [IsOpen, hplace], by simp [mapEntries, hplace]⟩
  · exact .inl ⟨entries, t, hplace, by simp [mapEntries, hplace]⟩

theorem entry_put_of_ne (s : Store) {name other : String} (node : Node) (h : other ≠ name) :
    (s.put name node).entry other = s.entry other := by
  unfold put
  rcases s.mapEntries_cases (Entries.put · name node) with
    ⟨entries, t, hplace, heq⟩ | ⟨-, heq⟩ <;> rw [heq]
  simp [entry, hplace, Node.child, Entries.lookup_put_of_ne h]

theorem entry_erase_of_ne (s : Store) {name other : String} (h : other ≠ name) :
    (s.erase name).entry other = s.entry other := by
  unfold erase
  rcases s.mapEntries_cases (Entries.erase · name) with
    ⟨entries, t, hplace, heq⟩ | ⟨-, heq⟩ <;> rw [heq]
  simp [entry, hplace, Node.child, Entries.lookup_erase_of_ne h]

theorem mapEntries_saves (s : Store) (f : Entries → Entries) :
    (s.mapEntries f).saves = s.saves := by
  unfold mapEntries
  split <;> rfl

theorem IsOpen.put {s : Store} (hopen : s.IsOpen) (name : String) (node : Node) :
    (s.put name node).IsOpen := by
  obtain ⟨entries, t, hplace⟩ := hopen
  exact ⟨Entries.put entries name node, t, by simp [Store.put, mapEntries, hplace]⟩

theorem IsOpen.erase {s : Store} (hopen : s.IsOpen) (name : String) : (s.erase name).IsOpen := by
  obtain ⟨entries, t, hplace⟩ := hopen
  exact ⟨Entries.erase entries name, t, by simp [Store.erase, mapEntries, hplace]⟩

theorem IsOpen.entry_put_self {s : Store} (hopen : s.IsOpen) {name : String} (node : Node)
    (hsize : name.utf8ByteSize ≤ Path.maxNameBytes) : (s.put name node).entry name = .ok node := by
  obtain ⟨entries, t, hplace⟩ := hopen
  have hn : ¬ Path.maxNameBytes < name.utf8ByteSize := by omega
  simp [Store.put, mapEntries, hplace, entry, Node.child, hn, Entries.lookup_put_self]

theorem IsOpen.entry_erase_self {s : Store} (hopen : s.IsOpen) {name : String}
    (hsize : name.utf8ByteSize ≤ Path.maxNameBytes) :
    (s.erase name).entry name = .error .notFound := by
  obtain ⟨entries, t, hplace⟩ := hopen
  have hn : ¬ Path.maxNameBytes < name.utf8ByteSize := by omega
  simp [Store.erase, mapEntries, hplace, entry, Node.child, hn, Entries.lookup_erase_self]

/-- In a directory, a name that is not too long can only be missing. -/
theorem IsOpen.eq_notFound {s : Store} (hopen : s.IsOpen) {name : String} {e : IoError}
    (hsize : name.utf8ByteSize ≤ Path.maxNameBytes) (h : s.entry name = .error e) :
    e = .notFound := by
  obtain ⟨entries, t, hplace⟩ := hopen
  have hn : ¬ Path.maxNameBytes < name.utf8ByteSize := by omega
  simp only [entry, hplace, Node.child, hn, if_false] at h
  split at h
  · cases h
  · cases h
    rfl

theorem isOpen_of_entry {s : Store} {name : String} {node : Node} (h : s.entry name = .ok node) :
    s.IsOpen := by
  rcases s.place_cases with hplace | ⟨content, t, hplace⟩ | hopen
  · simp [entry, hplace] at h
  · simp [entry, hplace, Node.child] at h
  · exact hopen

theorem cached_put_of_ne (s : Store) {id other : FilterId} (node : Node) (h : other ≠ id) :
    (s.put (fileName id) node).cached other = s.cached other :=
  s.entry_put_of_ne node (fun he => h (fileName_injective he))

theorem cached_erase_of_ne (s : Store) {id other : FilterId} (h : other ≠ id) :
    (s.erase (fileName id)).cached other = s.cached other :=
  s.entry_erase_of_ne (fun he => h (fileName_injective he))

theorem cached_erase_temp (s : Store) (id other : FilterId) (process : UInt32) (saves : UInt64) :
    (s.erase (tempName other process saves)).cached id = s.cached id :=
  s.entry_erase_of_ne (fileName_ne_tempName id other process saves)

/-- Erasing a cached file leaves nothing in its place, or finds nothing that could be erased. -/
theorem cached_erase_self (s : Store) (id : FilterId) :
    (s.erase (fileName id)).cached id = .error .notFound ∨
      (s.erase (fileName id)).cached id = s.cached id := by
  by_cases hopen : s.IsOpen
  · exact .inl (hopen.entry_erase_self (utf8ByteSize_fileName_le id))
  · right
    unfold Store.erase
    rcases s.mapEntries_cases (Entries.erase · (fileName id)) with
      ⟨entries, t, hplace, -⟩ | ⟨-, heq⟩
    · exact absurd ⟨entries, t, hplace⟩ hopen
    · rw [heq]

end Store

end FilterLists
