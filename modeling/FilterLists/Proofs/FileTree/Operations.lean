import FilterLists.Proofs.FileTree.Node

/-!
The operations on a file tree by what they keep. A path leads to the same place before and after,
and a file that is not written, replaced or removed is read as before.
-/
namespace FilterLists.FileTree

open Node (Alike Preserves)

/-- Where parts lead from a directory, last name first, whatever there is on the way. -/
def resolve (chain : List String) : List String → List String
  | [] => chain
  | part :: rest =>
    resolve (if isDots part then if part = ".." then chain.tail else chain else part :: chain) rest

section Follow
variable {root after : Node} {chain parts more last : List String} {part : String}

theorem directory_of_follow (h : follow root chain (part :: parts) = .ok last) :
    ∃ node, root.descend chain.reverse = .ok node ∧ node.isDirectory = true := by
  rw [follow] at h
  cases hnode : root.descend chain.reverse with
  | error e => simp [hnode] at h
  | ok node =>
    refine ⟨node, rfl, ?_⟩
    by_contra hfile
    cases node with
    | file content t => simp [hnode, Node.isDirectory, Node.child] at h
    | directory entries t => exact hfile rfl

theorem follow_dots (hdots : isDots part = true) (h : follow root chain (part :: parts) = .ok last) :
    follow root (if part = ".." then chain.tail else chain) parts = .ok last := by
  obtain ⟨node, hnode, hdirectory⟩ := directory_of_follow h
  simpa [follow, hnode, hdots, hdirectory] using h

theorem follow_name (hdots : isDots part = false) (h : follow root chain (part :: parts) = .ok last) :
    (∃ found, root.descend (chain.reverse ++ [part]) = .ok found) ∧
      follow root (part :: chain) parts = .ok last := by
  obtain ⟨node, hnode, hdirectory⟩ := directory_of_follow h
  simp only [follow, hnode, hdots, Bool.false_eq_true, if_false] at h
  cases hchild : node.child part with
  | error e => simp [hchild] at h
  | ok found =>
    refine ⟨⟨found, ?_⟩, by simpa [hchild] using h⟩
    rw [Node.descend_append hnode, Node.descend_cons hchild, Node.descend]

theorem follow_eq_resolve (h : follow root chain parts = .ok last) : last = resolve chain parts := by
  induction parts generalizing chain with
  | nil =>
    cases h
    rfl
  | cons part rest ih =>
    rw [resolve]
    cases hdots : isDots part with
    | true => simpa using ih (follow_dots hdots h)
    | false => simpa using ih (follow_name hdots h).2

/-- A path leads to the same place after a change, unless that place is lost. -/
theorem follow_of_preserves {lost : List String → Prop} (hkeeps : Preserves lost root after)
    (h : follow root chain parts = .ok last) (hlast : ¬ lost last.reverse) :
    follow after chain parts = .ok last := by
  induction parts generalizing chain with
  | nil => exact h
  | cons part rest ih =>
    -- what is passed through is a directory, and no directory is lost
    have hstays : ∀ names node, root.descend names = .ok node → node.isDirectory = true →
        ¬ lost names := by
      intro names node hnode hdirectory hlost
      rw [hkeeps.leaf names node hnode hlost] at hdirectory
      cases hdirectory
    obtain ⟨node, hnode, hdirectory⟩ := directory_of_follow h
    obtain ⟨same, hsame, halike⟩ :=
      hkeeps.kept _ node hnode (hstays _ node hnode hdirectory)
    have hdir : same.isDirectory = true := halike.isDirectory ▸ hdirectory
    cases hdots : isDots part with
    | true =>
      have hrest := ih (follow_dots hdots h)
      simpa [follow, hsame, hdots, hdir] using hrest
    | false =>
      obtain ⟨⟨found, hfound⟩, hfollow⟩ := follow_name hdots h
      -- the next part names the end, which is kept, or a directory
      have hnext : ¬ lost (chain.reverse ++ [part]) := by
        cases rest with
        | nil =>
          cases hfollow
          simpa using hlast
        | cons next rest =>
          obtain ⟨inner, hinner, hinnerdir⟩ := directory_of_follow hfollow
          rw [List.reverse_cons] at hinner
          exact hstays _ inner hinner hinnerdir
      obtain ⟨kept, hkept, -⟩ := hkeeps.kept _ found hfound hnext
      rw [Node.descend_append hsame] at hkept
      obtain ⟨child, hchild, -⟩ := Node.child_of_descend_cons hkept
      have hrest := ih hfollow
      simpa [follow, hsame, hdots, hchild] using hrest

theorem follow_append (h : follow root chain parts = .ok last) :
    follow root chain (parts ++ more) = follow root last more := by
  induction parts generalizing chain with
  | nil =>
    cases h
    rfl
  | cons part rest ih =>
    obtain ⟨node, hnode, hdirectory⟩ := directory_of_follow h
    cases hdots : isDots part with
    | true =>
      rw [← ih (follow_dots hdots h)]
      simp [follow, hnode, hdots, hdirectory]
    | false =>
      obtain ⟨⟨found, hfound⟩, hfollow⟩ := follow_name hdots h
      rw [Node.descend_append hnode] at hfound
      obtain ⟨child, hchild, -⟩ := Node.child_of_descend_cons hfound
      rw [← ih hfollow]
      simp [follow, hnode, hdots, hchild]

theorem follow_of_append (h : follow root chain (parts ++ more) = .ok last) :
    ∃ next, follow root chain parts = .ok next ∧ follow root next more = .ok last := by
  induction parts generalizing chain with
  | nil => exact ⟨chain, rfl, h⟩
  | cons part rest ih =>
    obtain ⟨node, hnode, hdirectory⟩ := directory_of_follow h
    cases hdots : isDots part with
    | true =>
      obtain ⟨next, hnext, hlast⟩ := ih (follow_dots hdots h)
      exact ⟨next, by simpa [follow, hnode, hdots, hdirectory] using hnext, hlast⟩
    | false =>
      obtain ⟨⟨found, hfound⟩, hfollow⟩ := follow_name hdots h
      rw [Node.descend_append hnode] at hfound
      obtain ⟨child, hchild, -⟩ := Node.child_of_descend_cons hfound
      obtain ⟨next, hnext, hlast⟩ := ih hfollow
      exact ⟨next, by simpa [follow, hnode, hdots, hchild] using hnext, hlast⟩

end Follow

section Paths
variable {tree after : FileTree} {path : String} {node : Node} {lost : List String → Prop}

def start (tree : FileTree) (absolute : Bool) : List String :=
  if absolute then [] else tree.working.reverse

def chainOf (tree : FileTree) (path : String) : List String :=
  (resolve (tree.start (Path.isAbsolute path)) (Path.parts path)).reverse

theorem locate_eq_follow (tree : FileTree) (absolute : Bool) (parts : List String) :
    tree.locate absolute parts = follow tree.root (tree.start absolute) parts := rfl

theorem nodeAt_of_follow {absolute : Bool} {parts chain : List String}
    (hfollow : follow tree.root (tree.start absolute) parts = .ok chain) :
    tree.nodeAt absolute parts = tree.root.descend chain.reverse := by
  rw [nodeAt, locate_eq_follow, hfollow]
  rfl

theorem follow_of_nodeAt {absolute : Bool} {parts : List String}
    (h : tree.nodeAt absolute parts = .ok node) :
    ∃ chain, follow tree.root (tree.start absolute) parts = .ok chain ∧
      tree.root.descend chain.reverse = .ok node := by
  rw [nodeAt, locate_eq_follow] at h
  cases hfollow : follow tree.root (tree.start absolute) parts with
  | error e => simp [hfollow, bind, Except.bind] at h
  | ok chain => exact ⟨chain, rfl, by simpa [hfollow, bind, Except.bind] using h⟩

/-- What it takes for a path to lead to a node. -/
structure LeadsTo (tree : FileTree) (path : String) (node : Node) : Prop where
  valid : checkPath path = .ok ()
  follow : follow tree.root (tree.start (Path.isAbsolute path)) (Path.parts path) =
    .ok (tree.chainOf path).reverse
  descend : tree.root.descend (tree.chainOf path) = .ok node
  directory : Path.asksForDirectory path = true → node.isDirectory = true

theorem leadsTo_of_find (h : tree.find path = .ok node) : tree.LeadsTo path node := by
  cases hvalid : checkPath path with
  | error e => simp [find, hvalid, bind, Except.bind] at h
  | ok valid =>
    cases hnode : tree.nodeAt (Path.isAbsolute path) (Path.parts path) with
    | error e => simp [find, hvalid, hnode, bind, Except.bind] at h
    | ok found =>
      obtain ⟨chain, hfollow, hdescend⟩ := follow_of_nodeAt hnode
      have hchain : chain = (tree.chainOf path).reverse := by
        rw [chainOf, List.reverse_reverse]
        exact follow_eq_resolve hfollow
      subst hchain
      rw [List.reverse_reverse] at hdescend
      simp only [find, hvalid, hnode, bind, Except.bind] at h
      split at h
      · cases h
      · next hdirectory =>
        cases h
        exact ⟨hvalid, hfollow, hdescend, fun hasks => by simpa [hasks] using hdirectory⟩

theorem LeadsTo.find (h : tree.LeadsTo path node) : tree.find path = .ok node := by
  have hnode : tree.nodeAt (Path.isAbsolute path) (Path.parts path) = .ok node := by
    rw [nodeAt_of_follow h.follow, List.reverse_reverse, h.descend]
  have hdirectory : (Path.asksForDirectory path && !node.isDirectory) = false := by
    cases hasks : Path.asksForDirectory path with
    | false => rfl
    | true => simp [h.directory hasks]
  simp [FileTree.find, h.valid, hnode, hdirectory, bind, Except.bind]

theorem chainOf_congr (hworking : after.working = tree.working) (path : String) :
    after.chainOf path = tree.chainOf path := by
  rw [chainOf, chainOf, start, start, hworking]

theorem LeadsTo.of_preserves (h : tree.LeadsTo path node) (hworking : after.working = tree.working)
    (hkeeps : Preserves lost tree.root after.root) (hlost : ¬ lost (tree.chainOf path)) :
    ∃ same, after.LeadsTo path same ∧ Alike node same := by
  obtain ⟨same, hsame, halike⟩ := hkeeps.kept _ node h.descend hlost
  have hchain := chainOf_congr hworking path
  refine ⟨same, ⟨h.valid, ?_, by rw [hchain, hsame], ?_⟩, halike⟩
  · rw [hchain, start, hworking]
    exact follow_of_preserves hkeeps h.follow (by rwa [List.reverse_reverse])
  · intro hasks
    rw [← halike.isDirectory]
    exact h.directory hasks

theorem read_eq_ok {content : Bytes} (h : tree.read path = .ok content) :
    ∃ t, tree.LeadsTo path (.file content t) := by
  rw [FileTree.read] at h
  split at h
  · next found t hfind =>
    cases h
    exact ⟨t, leadsTo_of_find hfind⟩
  · cases h
  · cases h

theorem LeadsTo.read {content : Bytes} {t : Instant} (h : tree.LeadsTo path (.file content t)) :
    tree.read path = .ok content := by
  rw [FileTree.read, h.find]

theorem LeadsTo.exists (h : tree.LeadsTo path node) : tree.exists? path = true := by
  rw [FileTree.exists?, h.find]
  rfl

theorem read_of_preserves {content : Bytes} (h : tree.read path = .ok content)
    (hworking : after.working = tree.working) (hkeeps : Preserves lost tree.root after.root)
    (hlost : ¬ lost (tree.chainOf path)) : after.read path = .ok content := by
  obtain ⟨t, hleads⟩ := read_eq_ok h
  obtain ⟨same, hsame, halike⟩ := hleads.of_preserves hworking hkeeps hlost
  rw [halike.eq_of_file rfl] at hsame
  exact hsame.read

/-- A path leads nowhere when the end of its chain is gone. -/
theorem not_exists_of_missing (hworking : after.working = tree.working)
    (h : ∀ node, after.root.descend (tree.chainOf path) ≠ .ok node) :
    after.exists? path = false := by
  cases hfind : after.find path with
  | error e => simp [exists?, hfind, Except.isOk, Except.toBool]
  | ok node =>
    have hdescend := (leadsTo_of_find hfind).descend
    rw [chainOf_congr hworking path] at hdescend
    exact absurd hdescend (h node)

end Paths

section Place
variable {tree after : FileTree} {absolute : Bool} {parts : List String} {name : String}
  {allow : Except IoError Node → Except IoError Unit} {node : Node}

/-- A node is only placed where there is nothing or a file. -/
def SparesDirectories (allow : Except IoError Node → Except IoError Unit) : Prop :=
  ∀ found, allow found = .ok () →
    found = .error .notFound ∨ ∃ file, found = .ok file ∧ file.isDirectory = false

theorem sparesDirectories_allowFile (asksForDirectory : Bool) :
    SparesDirectories (allowFile asksForDirectory) := by
  intro found h
  cases found with
  | ok node =>
    cases node with
    | file content t => exact .inr ⟨_, rfl, rfl⟩
    | directory entries t => cases asksForDirectory <;> simp [allowFile] at h
  | error e => cases e <;> cases asksForDirectory <;> simp_all [allowFile]

theorem sparesDirectories_allowDirectory : SparesDirectories allowDirectory := by
  intro found h
  cases found with
  | ok node => simp [allowDirectory] at h
  | error e => cases e <;> simp_all [allowDirectory]

theorem SparesDirectories.directory (hallow : SparesDirectories allow) {directory : Node}
    (h : allow (directory.child name) = .ok ()) :
    ∃ entries t, directory = .directory entries t ∧ ¬ Path.maxNameBytes < name.utf8ByteSize ∧
      ∀ found, entries.lookup name = some found → found.isDirectory = false := by
  cases directory with
  | file content t =>
    rcases hallow _ h with hchild | ⟨file, hchild, -⟩ <;> simp [Node.child] at hchild
  | directory entries t =>
    have hsize : ¬ Path.maxNameBytes < name.utf8ByteSize := by
      intro hlong
      rcases hallow _ h with hchild | ⟨file, hchild, -⟩ <;>
        simp [Node.child_directory, hlong] at hchild
    refine ⟨entries, t, rfl, hsize, fun found hfound => ?_⟩
    have hchild : (Node.directory entries t).child name = .ok found := by
      rw [Node.child_directory, if_neg hsize, hfound]
    rcases hallow _ h with hmissing | ⟨file, hfile, hkind⟩
    · rw [hchild] at hmissing
      cases hmissing
    · rw [hchild] at hfile
      cases hfile
      exact hkind

/-- What has happened when a node was placed. -/
structure Placed (tree after : FileTree) (absolute : Bool) (parts : List String) (name : String)
    (node : Node) (chain : List String) : Prop where
  working : after.working = tree.working
  preserves : Preserves (· = chain) tree.root after.root
  descend : after.root.descend chain = .ok node
  follow : isDots name = false →
    follow after.root (after.start absolute) (parts ++ [name]) = .ok chain.reverse

theorem placed_of_change {chain : List String} {entries : Entries} {t : Instant}
    (hfollow : follow tree.root (tree.start absolute) parts = .ok chain)
    (hdirectory : tree.root.descend chain.reverse = .ok (.directory entries t))
    (hsize : ¬ Path.maxNameBytes < name.utf8ByteSize)
    (hleaf : ∀ found, entries.lookup name = some found → found.isDirectory = false) :
    Placed tree { tree with root := tree.root.change (chain.reverse ++ [name]) (fun _ => some node) }
      absolute parts name node (chain.reverse ++ [name]) := by
  have hput : (Node.directory (Entries.put entries name node) t).child name = .ok node := by
    rw [Node.child_directory, if_neg hsize, Entries.lookup_put_self]
  have hpreserves : Preserves (· = chain.reverse ++ [name]) tree.root
      (tree.root.change (chain.reverse ++ [name]) (fun _ => some node)) := by
    have hentries := Preserves.of_entries (t := t)
      (fun other hother => Entries.lookup_put_of_ne hother entries node) hleaf
    rw [Node.change_append hdirectory]
    exact (Node.preserves_change hdirectory hentries).congr (by simp)
  have hdescend : ∀ more,
      (tree.root.change (chain.reverse ++ [name]) (fun _ => some node)).descend
        (chain.reverse ++ more) = (Node.directory (Entries.put entries name node) t).descend more := by
    intro more
    rw [Node.change_append hdirectory]
    exact Node.descend_change hdirectory more
  refine ⟨rfl, hpreserves, by rw [hdescend, Node.descend_cons hput, Node.descend], fun hdots => ?_⟩
  have hparts := follow_of_preserves hpreserves hfollow (by simp)
  have htop := hdescend []
  rw [List.append_nil, Node.descend] at htop
  have hlast : follow (tree.root.change (chain.reverse ++ [name]) (fun _ => some node)) chain [name] =
      .ok (name :: chain) := by
    simp only [follow, htop, hdots, hput, Bool.false_eq_true, if_false]
  rw [List.reverse_append, List.reverse_reverse]
  exact (follow_append hparts).trans hlast

theorem placed_of_place (hallow : SparesDirectories allow)
    (h : tree.place absolute parts name allow node = .ok after) :
    ∃ chain, follow tree.root (tree.start absolute) parts = .ok chain ∧
      (∃ directory, tree.root.descend chain.reverse = .ok directory ∧
        allow (directory.child name) = .ok ()) ∧
      Placed tree after absolute parts name node (chain.reverse ++ [name]) := by
  simp only [place, locate_eq_follow, bind, Except.bind] at h
  cases hfollow : follow tree.root (tree.start absolute) parts with
  | error e => simp [hfollow] at h
  | ok chain =>
    simp only [hfollow] at h
    cases hdirectory : tree.root.descend chain.reverse with
    | error e => simp [hdirectory] at h
    | ok directory =>
      simp only [hdirectory] at h
      cases hallowed : allow (directory.child name) with
      | error e => simp [hallowed] at h
      | ok allowed =>
        simp only [hallowed] at h
        cases h
        obtain ⟨entries, t, rfl, hsize, hleaf⟩ := hallow.directory hallowed
        exact ⟨chain, rfl, ⟨_, hdirectory, hallowed⟩, placed_of_change hfollow hdirectory hsize hleaf⟩

end Place

section Write
variable {tree after : FileTree} {path : String} {content : Bytes} {now : Instant}

/-- A write that succeeds puts the file where the path leads and keeps everything else. -/
theorem write_eq_ok (h : tree.write path content now = .ok after) :
    after.working = tree.working ∧ Preserves (· = tree.chainOf path) tree.root after.root ∧
      after.LeadsTo path (.file content now) := by
  simp only [write, bind, Except.bind] at h
  cases hvalid : checkPath path with
  | error e => simp [hvalid] at h
  | ok valid =>
    simp only [hvalid] at h
    cases hlast : (Path.parts path).getLast? with
    | none => simp [hlast] at h
    | some name =>
      simp only [hlast] at h
      cases hdots : isDots name with
      | true =>
        rw [hdots, if_pos rfl] at h
        split at h <;> cases h
      | false =>
        rw [hdots, if_neg (by simp)] at h
        obtain ⟨chain, hfollow, ⟨directory, -, hallow⟩, hplaced⟩ :=
          placed_of_place (sparesDirectories_allowFile _) h
        have hparts : (Path.parts path).dropLast ++ [name] = Path.parts path :=
          List.dropLast_append_getLast? name hlast
        have hthere := hplaced.follow hdots
        rw [hparts] at hthere
        have hchain : chain.reverse ++ [name] = tree.chainOf path := by
          rw [← chainOf_congr hplaced.working path, chainOf, ← follow_eq_resolve hthere,
            List.reverse_reverse]
        -- a file is not allowed where a directory is asked for
        have hasks : Path.asksForDirectory path = false := by
          cases hasks : Path.asksForDirectory path with
          | false => rfl
          | true =>
            rw [hasks] at hallow
            cases hchild : directory.child name with
            | ok found => simp [hchild, allowFile] at hallow
            | error e => cases e <;> simp [hchild, allowFile] at hallow
        rw [hchain] at hplaced hthere
        refine ⟨hplaced.working, hplaced.preserves, hvalid, ?_, ?_, by simp [hasks]⟩
        · rw [chainOf_congr hplaced.working path]
          exact hthere
        · rw [chainOf_congr hplaced.working path]
          exact hplaced.descend

/-- A path without names asks for a directory. -/
theorem asksForDirectory_of_parts (hvalid : checkPath path = .ok ()) (h : Path.parts path = []) :
    Path.asksForDirectory path = true := by
  have hparts : ∀ text : List Char, (∀ part ∈ Text.splitAt '/' text, part = []) →
      ∀ c ∈ text, c = '/' := by
    intro text
    induction text with
    | nil => simp
    | cons c rest ih =>
      intro hall
      by_cases hc : c = '/'
      · subst hc
        simp only [Text.splitAt, if_true, List.forall_mem_cons] at hall
        exact List.forall_mem_cons.mpr ⟨rfl, ih hall.2⟩
      · simp only [Text.splitAt, hc, if_false] at hall
        split at hall
        · simp at hall
        · simp at hall
  have hslashes := hparts path.toList (by simpa [Path.parts] using h)
  have hne : path.toList ≠ [] := by
    intro hnil
    have hempty : path = "" := by simpa using hnil
    subst hempty
    simp [checkPath] at hvalid
  have hlast := hslashes _ (List.getLast_mem hne)
  simp [Path.asksForDirectory, List.getLast?_eq_some_getLast hne, hlast]

theorem isDirectory_of_dots {root node : Node} {chain last : List String} {part : String}
    (hdots : isDots part = true) (h : follow root chain [part] = .ok last)
    (hnode : root.descend last.reverse = .ok node) : node.isDirectory = true := by
  obtain ⟨inner, hinner, hdirectory⟩ := directory_of_follow h
  have hlast := follow_dots hdots h
  rw [follow] at hlast
  cases hlast
  by_cases hup : part = ".."
  · rw [if_pos hup] at hnode
    cases chain with
    | nil =>
      rw [List.tail_nil, hinner] at hnode
      cases hnode
      exact hdirectory
    | cons name chain =>
      rw [List.reverse_cons] at hinner
      obtain ⟨found, hfound, hrest⟩ := Node.descend_of_append hinner
      rw [List.tail_cons, hfound] at hnode
      cases hnode
      obtain ⟨child, hchild, -⟩ := Node.child_of_descend_cons hrest
      exact Node.isDirectory_of_child hchild
  · rw [if_neg hup, hinner] at hnode
    cases hnode
    exact hdirectory

theorem write_of_leadsTo {old : Bytes} {t : Instant} (h : tree.LeadsTo path (.file old t))
    (content : Bytes) (now : Instant) : ∃ after, tree.write path content now = .ok after := by
  have hasks : Path.asksForDirectory path = false := by
    cases hasks : Path.asksForDirectory path with
    | false => rfl
    | true => exact absurd (h.directory hasks) (by simp [Node.isDirectory])
  cases hlast : (Path.parts path).getLast? with
  | none =>
    rw [asksForDirectory_of_parts h.valid (List.getLast?_eq_none_iff.mp hlast)] at hasks
    cases hasks
  | some name =>
    have hparts : (Path.parts path).dropLast ++ [name] = Path.parts path :=
      List.dropLast_append_getLast? name hlast
    have hfollow := h.follow
    rw [← hparts] at hfollow
    obtain ⟨next, hnext, hstep⟩ := follow_of_append hfollow
    have hdescend : tree.root.descend (tree.chainOf path).reverse.reverse = .ok (.file old t) := by
      rw [List.reverse_reverse, h.descend]
    cases hdots : isDots name with
    | true => exact absurd (isDirectory_of_dots hdots hstep hdescend) (by simp [Node.isDirectory])
    | false =>
      obtain ⟨directory, hdirectory, -⟩ := directory_of_follow hstep
      obtain ⟨-, hchain⟩ := follow_name hdots hstep
      rw [← Except.ok.inj hchain, List.reverse_cons, Node.descend_append hdirectory] at hdescend
      obtain ⟨found, hfound, hfile⟩ := Node.child_of_descend_cons hdescend
      cases hfile
      simp [write, h.valid, hlast, hdots, hasks, place, locate_eq_follow, hnext, hdirectory, hfound,
        allowFile, bind, Except.bind]

end Write

section Directories
variable {tree : FileTree} {absolute : Bool} {parts : List String} {now : Instant}

/-- What making directories keeps: everything. -/
structure Grown (tree after : FileTree) : Prop where
  working : after.working = tree.working
  preserves : Preserves (fun _ => False) tree.root after.root

theorem Grown.refl (tree : FileTree) : Grown tree tree := ⟨rfl, .refl tree.root⟩

theorem Grown.trans {after last : FileTree} (h : Grown tree after) (hmore : Grown after last) :
    Grown tree last :=
  ⟨hmore.working.trans h.working, (h.preserves.trans hmore.preserves).congr (by simp)⟩

theorem makeDirectory_eq_ok {made : FileTree} (h : tree.makeDirectory absolute parts now = .ok made) :
    Grown tree made ∧ made.nodeAt absolute parts = .ok (.directory [] now) := by
  simp only [makeDirectory, bind, Except.bind] at h
  cases hlast : parts.getLast? with
  | none => simp [hlast] at h
  | some name =>
    simp only [hlast] at h
    cases hdots : isDots name with
    | true =>
      rw [hdots, if_pos rfl] at h
      split at h <;> cases h
    | false =>
      rw [hdots, if_neg (by simp)] at h
      obtain ⟨chain, hfollow, ⟨directory, hdirectory, hallow⟩, hplaced⟩ :=
        placed_of_place sparesDirectories_allowDirectory h
      have hthere := hplaced.follow hdots
      rw [List.dropLast_append_getLast? name hlast] at hthere
      have hmissing : directory.child name = .error .notFound := by
        cases hchild : directory.child name with
        | ok found => simp [hchild, allowDirectory] at hallow
        | error e => cases e <;> simp_all [allowDirectory]
      refine ⟨⟨hplaced.working, hplaced.preserves.of_missing ?_⟩, ?_⟩
      · rintro _ node rfl hnode
        rw [Node.descend_append hdirectory, Node.descend, hmissing] at hnode
        cases hnode
      · rw [nodeAt_of_follow hthere, List.reverse_reverse, hplaced.descend]

theorem grown_ensureDirectory (tree : FileTree) (absolute : Bool) (parts : List String)
    (now : Instant) : Grown tree (tree.ensureDirectory absolute parts now).1 := by
  rw [ensureDirectory]
  cases hmake : tree.makeDirectory absolute parts now with
  | ok made => exact (makeDirectory_eq_ok hmake).1
  | error e =>
    simp only
    split <;> exact Grown.refl tree

theorem grown_ensureParts (tree : FileTree) (absolute : Bool) (parts : List String)
    (now : Instant) : Grown tree (tree.ensureParts absolute parts now).1 := by
  fun_induction FileTree.ensureParts tree absolute parts now with
  | case1 => exact Grown.refl _
  | case2 parts hne hmissing made hparent ih =>
    rw [hparent] at ih
    exact ih.trans (grown_ensureDirectory made absolute parts now)
  | case3 parts hne hmissing hfailed ih => exact ih
  | case4 parts hne hmake => exact grown_ensureDirectory tree absolute parts now

theorem grown_ensurePath (tree : FileTree) (path : String) (now : Instant) :
    Grown tree (tree.ensurePath path now).1 := by
  rw [ensurePath]
  split
  · exact grown_ensureParts ..
  · exact Grown.refl tree

/-- There is a directory at a path, or the path is that of the root. -/
structure HasDirectory (tree : FileTree) (path : String) : Prop where
  valid : checkPath path = .ok ()
  stands : Path.parts path = [] ∨
    ∃ entries t, tree.nodeAt (Path.isAbsolute path) (Path.parts path) = .ok (.directory entries t)

theorem HasDirectory.of_preserves {after : FileTree} {path : String} {lost : List String → Prop}
    (h : tree.HasDirectory path) (hworking : after.working = tree.working)
    (hkeeps : Preserves lost tree.root after.root) : after.HasDirectory path := by
  refine ⟨h.valid, h.stands.imp_right ?_⟩
  rintro ⟨entries, t, hnode⟩
  obtain ⟨chain, hfollow, hdescend⟩ := follow_of_nodeAt hnode
  have hlost : ¬ lost chain.reverse := fun hlost =>
    absurd (hkeeps.leaf _ _ hdescend hlost) (by simp [Node.isDirectory])
  obtain ⟨same, hsame, halike⟩ := hkeeps.kept _ _ hdescend hlost
  have hfollow' : follow after.root (after.start (Path.isAbsolute path)) (Path.parts path) =
      .ok chain := by
    rw [start, hworking]
    exact follow_of_preserves hkeeps hfollow hlost
  match same, halike.isDirectory with
  | .directory entries' t', _ => exact ⟨entries', t', by rw [nodeAt_of_follow hfollow', hsame]⟩

theorem makeDirectory_of_directory {entries : Entries} {t : Instant} (hne : parts ≠ [])
    (h : tree.nodeAt absolute parts = .ok (.directory entries t)) :
    tree.makeDirectory absolute parts now = .error .alreadyExists := by
  obtain ⟨chain, hfollow, hdescend⟩ := follow_of_nodeAt h
  obtain ⟨name, hlast⟩ : ∃ name, parts.getLast? = some name :=
    ⟨_, List.getLast?_eq_some_getLast hne⟩
  have hparts : parts.dropLast ++ [name] = parts := List.dropLast_append_getLast? name hlast
  cases hdots : isDots name with
  | true => simp [makeDirectory, hlast, hdots, locate_eq_follow, hfollow, bind, Except.bind]
  | false =>
    rw [← hparts] at hfollow
    obtain ⟨next, hnext, hstep⟩ := follow_of_append hfollow
    obtain ⟨directory, hdirectory, -⟩ := directory_of_follow hstep
    obtain ⟨-, hchain⟩ := follow_name hdots hstep
    rw [← Except.ok.inj hchain, List.reverse_cons, Node.descend_append hdirectory] at hdescend
    obtain ⟨found, hfound, -⟩ := Node.child_of_descend_cons hdescend
    simp [makeDirectory, hlast, hdots, place, locate_eq_follow, hnext, hdirectory, hfound,
      allowDirectory, bind, Except.bind]

/-- A directory that is there needs no making. -/
theorem HasDirectory.ensurePath {path : String} (h : tree.HasDirectory path) (now : Instant) :
    tree.ensurePath path now = (tree, .ok ()) := by
  rw [FileTree.ensurePath, h.valid]
  show tree.ensureParts _ _ now = _
  rw [ensureParts]
  split
  · rfl
  · next hne =>
    obtain ⟨entries, t, hnode⟩ := h.stands.resolve_left hne
    have hmake : tree.makeDirectory _ _ now = _ := makeDirectory_of_directory hne hnode
    simp [hmake, ensureDirectory, hnode]

theorem directory_of_ensureDirectory
    (h : (tree.ensureDirectory absolute parts now).2 = .ok ()) :
    ∃ entries t, (tree.ensureDirectory absolute parts now).1.nodeAt absolute parts =
      .ok (.directory entries t) := by
  rw [ensureDirectory] at h ⊢
  cases hmake : tree.makeDirectory absolute parts now with
  | ok made => exact ⟨_, _, (makeDirectory_eq_ok hmake).2⟩
  | error e =>
    simp only [hmake] at h ⊢
    split at h
    · next entries t hnode => exact ⟨entries, t, by simp [hnode]⟩
    · cases h

theorem directory_of_ensureParts (hne : parts ≠ [])
    (h : (tree.ensureParts absolute parts now).2 = .ok ()) :
    ∃ entries t, (tree.ensureParts absolute parts now).1.nodeAt absolute parts =
      .ok (.directory entries t) := by
  revert h
  fun_cases FileTree.ensureParts tree absolute parts now with
  | case1 hnil => exact absurd hnil hne
  | case2 _ hmissing made hparent => exact directory_of_ensureDirectory
  | case3 _ hmissing hfailed => exact fun h => (hfailed _ (Prod.ext rfl h)).elim
  | case4 _ hmake => exact directory_of_ensureDirectory

theorem hasDirectory_of_ensurePath {path : String} (h : (tree.ensurePath path now).2 = .ok ()) :
    (tree.ensurePath path now).1.HasDirectory path := by
  cases hvalid : checkPath path with
  | error e => simp [FileTree.ensurePath, hvalid] at h
  | ok valid =>
    refine ⟨hvalid, ?_⟩
    simp only [FileTree.ensurePath, hvalid] at h ⊢
    by_cases hne : Path.parts path = []
    · exact .inl hne
    · exact .inr (directory_of_ensureParts hne h)

end Directories

section Replace
variable {tree : FileTree} {path : String} {node new : Node} {lost : List String → Prop}

/-- A replacement keeps what the new node keeps of the old one, and everything elsewhere. -/
theorem preserves_replace (h : tree.LeadsTo path node) (hnew : Preserves lost node new) :
    (tree.replace path new).working = tree.working ∧
      Preserves (fun names => ∃ rest, names = tree.chainOf path ++ rest ∧ lost rest) tree.root
        (tree.replace path new).root := by
  have hreplace : tree.replace path new =
      { tree with root := tree.root.change (tree.chainOf path) (fun _ => some new) } := by
    rw [replace, locate_eq_follow, h.follow]
    simp
  rw [hreplace]
  exact ⟨rfl, Node.preserves_change h.descend hnew⟩

theorem descend_replace (h : tree.LeadsTo path node) (more : List String) :
    (tree.replace path new).root.descend (tree.chainOf path ++ more) = new.descend more := by
  have hreplace : (tree.replace path new).root =
      tree.root.change (tree.chainOf path) (fun _ => some new) := by
    rw [replace, locate_eq_follow, h.follow]
    simp
  rw [hreplace]
  exact Node.descend_change h.descend more

end Replace

end FilterLists.FileTree
