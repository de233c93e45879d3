import Mathlib
import FilterLists.Proofs.Store.Entries

/-!
What a change at one place of a tree leaves as it was. A file is kept when it stands at the end of
the same chain of names with the same content and time, and a directory when there still is one.
-/
namespace FilterLists.Node

/-- The same file, or a directory again. -/
def Alike (a b : Node) : Prop :=
  a = b ∨ (a.isDirectory = true ∧ b.isDirectory = true)

theorem Alike.refl (a : Node) : Alike a a := .inl rfl

theorem Alike.trans {a b c : Node} (hab : Alike a b) (hbc : Alike b c) : Alike a c := by
  rcases hab with rfl | ⟨ha, hb⟩
  · exact hbc
  · rcases hbc with rfl | ⟨-, hc⟩
    · exact .inr ⟨ha, hb⟩
    · exact .inr ⟨ha, hc⟩

theorem Alike.isDirectory {a b : Node} (h : Alike a b) : a.isDirectory = b.isDirectory := by
  rcases h with rfl | ⟨ha, hb⟩
  · rfl
  · rw [ha, hb]

theorem Alike.eq_of_file {a b : Node} (h : Alike a b) (ha : a.isDirectory = false) : b = a := by
  rcases h with rfl | ⟨hd, -⟩
  · rfl
  · rw [ha] at hd
    cases hd

/-- Everything is kept but the ends of some chains, at which there was no directory. -/
structure Preserves (lost : List String → Prop) (before after : Node) : Prop where
  kept : ∀ names node, before.descend names = .ok node → ¬ lost names →
    ∃ same, after.descend names = .ok same ∧ Alike node same
  leaf : ∀ names node, before.descend names = .ok node → lost names → node.isDirectory = false

section Descend
variable {node found : Node} {name : String} {names more : List String}

theorem descend_cons (h : node.child name = .ok found) :
    node.descend (name :: more) = found.descend more := by
  rw [descend, h]

theorem child_of_descend_cons {last : Node} (h : node.descend (name :: more) = .ok last) :
    ∃ found, node.child name = .ok found ∧ found.descend more = .ok last := by
  rw [descend] at h
  cases hchild : node.child name with
  | ok found => exact ⟨found, rfl, by simpa [hchild] using h⟩
  | error e => simp [hchild] at h

theorem descend_append (h : node.descend names = .ok found) :
    node.descend (names ++ more) = found.descend more := by
  induction names generalizing node with
  | nil =>
    cases h
    rfl
  | cons name names ih =>
    obtain ⟨next, hchild, hnext⟩ := child_of_descend_cons h
    rw [List.cons_append, descend_cons hchild, ih hnext]

/-- Whatever stands behind a chain stands in a directory or is that place itself. -/
theorem descend_of_append {last : Node} (h : node.descend (names ++ more) = .ok last) :
    ∃ found, node.descend names = .ok found ∧ found.descend more = .ok last := by
  induction names generalizing node with
  | nil => exact ⟨node, rfl, h⟩
  | cons name names ih =>
    obtain ⟨next, hchild, hnext⟩ := child_of_descend_cons h
    obtain ⟨found, hfound, hlast⟩ := ih hnext
    exact ⟨found, by rw [descend_cons hchild, hfound], hlast⟩

theorem isDirectory_of_child (h : node.child name = .ok found) : node.isDirectory = true := by
  cases node with
  | file content t => simp [child] at h
  | directory entries t => rfl

/-- Nothing stands behind a file. -/
theorem eq_nil_of_descend_file {last : Node} (hfile : node.isDirectory = false)
    (h : node.descend names = .ok last) : names = [] := by
  cases names with
  | nil => rfl
  | cons name names =>
    obtain ⟨found, hchild, -⟩ := child_of_descend_cons h
    rw [isDirectory_of_child hchild] at hfile
    cases hfile

theorem child_directory (entries : Entries) (t : Instant) (name : String) :
    (directory entries t).child name =
      if Path.maxNameBytes < name.utf8ByteSize then .error .nameTooLong
      else
        match entries.lookup name with
        | some found => .ok found
        | none => .error .notFound := rfl

theorem lookup_of_child {entries : Entries} {t : Instant}
    (h : (directory entries t).child name = .ok found) :
    ¬ Path.maxNameBytes < name.utf8ByteSize ∧ entries.lookup name = some found := by
  rw [child_directory] at h
  split at h
  · cases h
  · next hsize =>
    refine ⟨hsize, ?_⟩
    split at h
    · next heq =>
      cases h
      exact heq
    · cases h

end Descend

namespace Preserves
variable {lost : List String → Prop} {before after : Node}

theorem refl (node : Node) : Preserves (fun _ => False) node node where
  kept _ found h _ := ⟨found, h, .refl found⟩
  leaf _ _ _ h := h.elim

theorem trans {more : List String → Prop} {last : Node} (h : Preserves lost before after)
    (hmore : Preserves more after last) :
    Preserves (fun names => lost names ∨ more names) before last where
  kept names node hnode hlost := by
    obtain ⟨hlost, hmorelost⟩ := not_or.mp hlost
    obtain ⟨same, hsame, halike⟩ := h.kept names node hnode hlost
    obtain ⟨again, hagain, halike'⟩ := hmore.kept names same hsame hmorelost
    exact ⟨again, hagain, halike.trans halike'⟩
  leaf names node hnode hlost := by
    by_cases hfirst : lost names
    · exact h.leaf names node hnode hfirst
    · obtain ⟨same, hsame, halike⟩ := h.kept names node hnode hfirst
      rw [halike.isDirectory]
      exact hmore.leaf names same hsame (hlost.resolve_left hfirst)

theorem congr {more : List String → Prop} (h : Preserves lost before after)
    (hiff : ∀ names, lost names ↔ more names) : Preserves more before after := by
  obtain rfl : lost = more := funext fun names => propext (hiff names)
  exact h

/-- Where nothing stood, nothing can be lost. -/
theorem of_missing (h : Preserves lost before after)
    (hmissing : ∀ names node, lost names → before.descend names ≠ .ok node) :
    Preserves (fun _ => False) before after where
  kept names node hnode _ := h.kept names node hnode (fun hlost => hmissing names node hlost hnode)
  leaf _ _ _ h := h.elim

theorem of_empty (before after : Instant) (entries : Entries) :
    Preserves (fun _ => False) (.directory [] before) (.directory entries after) where
  kept names node hnode _ := by
    cases names with
    | nil =>
      cases hnode
      exact ⟨_, rfl, .inr ⟨rfl, rfl⟩⟩
    | cons first rest =>
      obtain ⟨found, hchild, -⟩ := child_of_descend_cons hnode
      cases (lookup_of_child hchild).2
  leaf _ _ _ h := h.elim

/-- A change of entries that is not seen under any name but one, under which there was no
directory. -/
theorem of_entries {entries changed : Entries} {t : Instant} {name : String}
    (hother : ∀ other ≠ name, changed.lookup other = entries.lookup other)
    (hleaf : ∀ found, entries.lookup name = some found → found.isDirectory = false) :
    Preserves (· = [name]) (.directory entries t) (.directory changed t) where
  kept names node hnode hlost := by
    cases names with
    | nil =>
      cases hnode
      exact ⟨.directory changed t, rfl, .inr ⟨rfl, rfl⟩⟩
    | cons first rest =>
      obtain ⟨found, hchild, hrest⟩ := child_of_descend_cons hnode
      obtain ⟨hsize, hlookup⟩ := lookup_of_child hchild
      by_cases hname : first = name
      · subst hname
        obtain rfl := eq_nil_of_descend_file (hleaf found hlookup) hrest
        exact absurd rfl hlost
      · have hsame : (directory changed t).child first = .ok found := by
          rw [child_directory, if_neg hsize, hother first hname, hlookup]
        exact ⟨node, by rw [descend_cons hsame, hrest], .refl node⟩
  leaf names node hnode hlost := by
    subst hlost
    obtain ⟨found, hchild, hrest⟩ := child_of_descend_cons hnode
    cases hrest
    exact hleaf _ (lookup_of_child hchild).2

theorem of_entry {entries : Entries} {t : Instant} {name : String} {found changed : Node}
    (hlookup : entries.lookup name = some found) (h : Preserves lost found changed) :
    Preserves (fun names => ∃ rest, names = name :: rest ∧ lost rest) (.directory entries t)
      (.directory (Entries.put entries name changed) t) where
  kept names node hnode hlost := by
    cases names with
    | nil =>
      cases hnode
      exact ⟨_, rfl, .inr ⟨rfl, rfl⟩⟩
    | cons first rest =>
      obtain ⟨next, hchild, hrest⟩ := child_of_descend_cons hnode
      obtain ⟨hsize, hnext⟩ := lookup_of_child hchild
      by_cases hname : first = name
      · subst hname
        obtain rfl : found = next := Option.some.inj (hlookup.symm.trans hnext)
        obtain ⟨same, hsame, halike⟩ := h.kept rest node hrest (fun hr => hlost ⟨rest, rfl, hr⟩)
        have hput : (directory (Entries.put entries first changed) t).child first = .ok changed := by
          rw [child_directory, if_neg hsize, Entries.lookup_put_self]
        exact ⟨same, by rw [descend_cons hput, hsame], halike⟩
      · have hput : (directory (Entries.put entries name changed) t).child first = .ok next := by
          rw [child_directory, if_neg hsize, Entries.lookup_put_of_ne hname, hnext]
        exact ⟨node, by rw [descend_cons hput, hrest], .refl node⟩
  leaf names node hnode hlost := by
    obtain ⟨rest, rfl, hlost⟩ := hlost
    obtain ⟨next, hchild, hrest⟩ := child_of_descend_cons hnode
    obtain rfl : found = next := Option.some.inj (hlookup.symm.trans (lookup_of_child hchild).2)
    exact h.leaf rest node hrest hlost

end Preserves

section Change
variable {node found new : Node} {names : List String}

theorem change_cons {entries : Entries} {t : Instant} {name : String}
    (h : entries.lookup name = some found) :
    (directory entries t).change (name :: names) (fun _ => some new) =
      .directory (Entries.put entries name (found.change names (fun _ => some new))) t := by
  cases names with
  | nil => simp [change]
  | cons next rest => simp [change, h]

/-- What stands behind a changed place stands behind the new node there. -/
theorem descend_change (h : node.descend names = .ok found) (more : List String) :
    (node.change names (fun _ => some new)).descend (names ++ more) = new.descend more := by
  induction names generalizing node with
  | nil => rfl
  | cons name names ih =>
    obtain ⟨next, hchild, hnext⟩ := child_of_descend_cons h
    match node, isDirectory_of_child hchild with
    | .directory entries t, _ =>
      obtain ⟨hsize, hlookup⟩ := lookup_of_child hchild
      have hput : (directory (Entries.put entries name (next.change names (fun _ => some new))) t).child
          name = .ok (next.change names (fun _ => some new)) := by
        rw [child_directory, if_neg hsize, Entries.lookup_put_self]
      rw [change_cons hlookup, List.cons_append, descend_cons hput]
      exact ih hnext

theorem preserves_change {lost : List String → Prop} (h : node.descend names = .ok found)
    (hnew : Preserves lost found new) :
    Preserves (fun chain => ∃ rest, chain = names ++ rest ∧ lost rest) node
      (node.change names (fun _ => some new)) := by
  induction names generalizing node with
  | nil =>
    cases h
    exact hnew.congr (by simp)
  | cons name names ih =>
    obtain ⟨next, hchild, hnext⟩ := child_of_descend_cons h
    match node, isDirectory_of_child hchild with
    | .directory entries t, _ =>
      have hlookup := (lookup_of_child hchild).2
      have hinner := Preserves.of_entry (t := t) hlookup (ih hnext)
      rw [change_cons hlookup]
      refine hinner.congr fun chain => ⟨?_, ?_⟩
      · rintro ⟨_, rfl, more, rfl, hmore⟩
        exact ⟨more, rfl, hmore⟩
      · rintro ⟨more, rfl, hmore⟩
        exact ⟨_, rfl, more, rfl, hmore⟩

theorem change_append {entries : Entries} {t : Instant}
    (h : node.descend names = .ok (.directory entries t)) (name : String) :
    node.change (names ++ [name]) (fun _ => some new) =
      node.change names (fun _ => some (.directory (Entries.put entries name new) t)) := by
  induction names generalizing node with
  | nil =>
    cases h
    rfl
  | cons first names ih =>
    obtain ⟨next, hchild, hnext⟩ := child_of_descend_cons h
    match node, isDirectory_of_child hchild with
    | .directory _ _, _ =>
      have hlookup := (lookup_of_child hchild).2
      rw [List.cons_append, change_cons hlookup, change_cons hlookup, ih hnext]

end Change

end FilterLists.Node
