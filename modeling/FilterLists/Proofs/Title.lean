import FilterLists.Filter
import FilterLists.Proofs.Parsing
import FilterLists.Proofs.Text.Blank

/-! The title of a content is the text of the first line that gives one. Lines are trimmed before
they are looked at, so a title comment without a text is no such line and hides no later one. -/
namespace FilterLists

/-- A download changes the name only to a title. -/
theorem Filter.title_of_applyFetched (f : Filter) (body : Bytes)
    (h : (f.applyFetched body).1.name ≠ f.name) :
    (Content.Summary.ofBytes body).title = some (f.applyFetched body).1.name := by
  by_cases hsame : f.checksum = some (FilterLists.checksum body)
  · exact absurd (by rw [Filter.applyFetched, if_pos hsame]) h
  · have hname : (f.applyFetched body).1.name =
        (Content.Summary.ofBytes body).title.getD f.name := by
      rw [Filter.applyFetched, if_neg hsame]
    cases htitle : (Content.Summary.ofBytes body).title with
    | none => exact absurd (by rw [hname, htitle, Option.getD_none]) h
    | some t => rw [hname, htitle, Option.getD_some]

namespace Content
variable {line title : List Char}

/-- The line gives the title: after the words `! Title:` and at least one space comes a text that is
not empty and begins with another character. -/
structure IsTitleLine (line title : List Char) : Prop where
  shape : ∃ n, line = "! Title:".toList ++ (List.replicate (n + 1) ' ' ++ title)
  nonempty : title ≠ []
  noSpace : title.head? ≠ some ' '

theorem replicate_append_dropWhile (text : List Char) :
    ∃ n, text = List.replicate n ' ' ++ text.dropWhile (· = ' ') := by
  have hspaces : text.takeWhile (· = ' ') =
      List.replicate (text.takeWhile (· = ' ')).length ' ' :=
    List.eq_replicate_iff.mpr ⟨rfl, fun c hc => by simpa using List.mem_takeWhile_imp hc⟩
  refine ⟨(text.takeWhile (· = ' ')).length, ?_⟩
  rw [← hspaces, List.takeWhile_append_dropWhile]

/-- In a line without a blank at its end, something follows the spaces. -/
theorem title?_eq_some_iff (hend : ∀ c ∈ line.getLast?, Text.isBlank c = false) :
    title? line = some title ↔ IsTitleLine line title := by
  constructor
  · intro h
    unfold title? at h
    split at h
    case h_1 rest hafter =>
      obtain rfl := Option.some.inj h
      obtain rfl := Text.after?_eq_some_iff.mp hafter
      obtain ⟨n, hrest⟩ := replicate_append_dropWhile rest
      refine ⟨⟨n, ?_⟩, fun hempty => ?_, fun hspace => ?_⟩
      · rw [List.replicate_succ, List.cons_append, ← hrest]
      · -- Only spaces would follow the colon, and the last of them would be a blank.
        rw [hempty, List.append_nil] at hrest
        have hlast : ("! Title:".toList ++ ' ' :: rest).getLast? = some ' ' := by
          rw [hrest, ← List.replicate_succ,
            List.getLast?_append_of_ne_nil _ (by simp), List.getLast?_replicate, if_neg (by simp)]
        exact absurd (hend ' ' hlast) (by decide)
      · have hfirst := List.head?_dropWhile_not (· = ' ') rest
        rw [hspace] at hfirst
        simp at hfirst
    · cases h
  · rintro ⟨⟨n, rfl⟩, hne, hspace⟩
    have hafter : Text.after? "! Title:".toList
        ("! Title:".toList ++ (List.replicate (n + 1) ' ' ++ title)) =
          some (' ' :: (List.replicate n ' ' ++ title)) :=
      Text.after?_eq_some_iff.mpr rfl
    have hspaces : (List.replicate n ' ' ++ title).dropWhile (· = ' ') = title := by
      rw [List.dropWhile_append_of_pos (fun c hc => by simpa using List.eq_of_mem_replicate hc)]
      cases title with
      | nil => exact absurd rfl hne
      | cons c rest => exact List.dropWhile_cons_of_neg (by simpa using hspace)
    rw [title?, hafter]
    exact congrArg some hspaces

theorem isBlank_of_getLast?_line {content : Bytes} (h : line ∈ lines content) :
    ∀ c ∈ line.getLast?, Text.isBlank c = false := by
  obtain ⟨part, -, rfl⟩ := List.mem_map.mp h
  exact fun c hc => Text.isBlank_of_getLast?_trim hc

theorem newline_notMem_line {content : Bytes} (h : line ∈ lines content) : '\n' ∉ line := by
  obtain ⟨part, hpart, rfl⟩ := List.mem_map.mp h
  exact fun hc => Text.notMem_of_mem_splitAt hpart (Text.mem_of_mem_trim hc)

/-- The title that ends a line shares its end with the line. -/
theorem IsTitleLine.getLast?_eq (h : IsTitleLine line title) : line.getLast? = title.getLast? := by
  obtain ⟨⟨n, rfl⟩, hne, -⟩ := h
  rw [List.getLast?_append_of_ne_nil _ (by simp), List.getLast?_append_of_ne_nil _ hne]

theorem IsTitleLine.subset (h : IsTitleLine line title) : title ⊆ line := by
  obtain ⟨⟨n, rfl⟩, -, -⟩ := h
  intro c hc
  exact List.mem_append_right _ (List.mem_append_right _ hc)

namespace Summary

theorem title_eq_some_iff (content : Bytes) (t : String) :
    (ofBytes content).title = some t ↔
      ∃ before line after, lines content = before ++ line :: after ∧
        IsTitleLine line t.toList ∧ ∀ earlier ∈ before, ∀ u, ¬ IsTitleLine earlier u := by
  have htext : (ofBytes content).title = some t ↔
      (lines content).findSome? title? = some t.toList := by
    rw [ofBytes_eq, Option.map_eq_some_iff]
    constructor
    · rintro ⟨text, htext, rfl⟩
      rw [htext, String.toList_ofList]
    · exact fun h => ⟨t.toList, h, String.ofList_toList⟩
  rw [htext, List.findSome?_eq_some_iff]
  refine exists_congr fun before => exists_congr fun line => exists_congr fun after =>
    and_congr_right fun hsplit => ?_
  have hmem : ∀ l ∈ before ++ line :: after, ∀ c ∈ l.getLast?, Text.isBlank c = false :=
    fun l hl => isBlank_of_getLast?_line (hsplit ▸ hl)
  refine and_congr (title?_eq_some_iff (hmem line (by simp))) (forall₂_congr fun l hl => ?_)
  have hline : ∀ u, title? l = some u ↔ IsTitleLine l u := fun u =>
    title?_eq_some_iff (hmem l (List.mem_append_left _ hl))
  rw [Option.eq_none_iff_forall_ne_some]
  exact forall_congr' fun u => not_congr (hline u)

end Summary

/-- The title of a content is that of its first line that gives one. So it is a text within one
line, without a space in front or a blank at the end, and it is never empty. Whatever other comments
come before it, a line that gives a title is enough for a title. A download never takes a name away
from a filter. -/
theorem title_exact (content : Bytes) :
    (∀ t, (Summary.ofBytes content).title = some t ↔
      ∃ before line after, lines content = before ++ line :: after ∧
        IsTitleLine line t.toList ∧ ∀ earlier ∈ before, ∀ u, ¬ IsTitleLine earlier u) ∧
    (∀ t, (Summary.ofBytes content).title = some t →
      t ≠ "" ∧ t.toList.head? ≠ some ' ' ∧ (∀ c ∈ t.toList.getLast?, Text.isBlank c = false) ∧
        '\n' ∉ t.toList) ∧
    (∀ line ∈ lines content, ∀ u, IsTitleLine line u →
      ∃ t, (Summary.ofBytes content).title = some t) ∧
    ∀ f : Filter, (f.applyFetched content).1.name ≠ f.name →
      (f.applyFetched content).1.name ≠ "" := by
  have hiff := Summary.title_eq_some_iff content
  have hformed : ∀ t, (Summary.ofBytes content).title = some t →
      t ≠ "" ∧ t.toList.head? ≠ some ' ' ∧ (∀ c ∈ t.toList.getLast?, Text.isBlank c = false) ∧
        '\n' ∉ t.toList := by
    intro t ht
    obtain ⟨before, line, after, hsplit, htitle, -⟩ := (hiff t).mp ht
    have hline : line ∈ lines content := by simp [hsplit]
    refine ⟨fun hempty => htitle.nonempty (by simp [hempty]), htitle.noSpace, ?_, fun hc => ?_⟩
    · rw [← htitle.getLast?_eq]
      exact isBlank_of_getLast?_line hline
    · exact newline_notMem_line hline (htitle.subset hc)
  refine ⟨hiff, hformed, fun line hline u htitle => ?_, fun f hname => ?_⟩
  · cases hnone : (lines content).findSome? title? with
    | none =>
      have hrefused := List.findSome?_eq_none_iff.mp hnone line hline
      have hgiven := (title?_eq_some_iff (isBlank_of_getLast?_line hline)).mpr htitle
      cases hrefused.symm.trans hgiven
    | some text => exact ⟨String.ofList text, by rw [Summary.ofBytes_eq, hnone]; rfl⟩
  · exact (hformed _ (f.title_of_applyFetched content hname)).1

/-- Of four title comments the first has no text and the second no space after the colon. -/
example : (Summary.ofBytes (bytesOf
    "! Title: \n! Title:\u00A0None\n  ! Title:   Two words\u3000\r\n! Title: Late")).title =
      some "Two words" := by
  decide +kernel

end Content

end FilterLists
