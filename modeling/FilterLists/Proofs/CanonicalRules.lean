import FilterLists.Proofs.Text.Utf8
import FilterLists.Proofs.Title

/-! The rules of a content are in a canonical form: written one a line they are read back as they
are, whatever the content was that they came from. -/
namespace FilterLists.Content
variable {rule : String} {content : Bytes}

/-- The text is what a line that says it is read as. -/
structure IsCanonical (rule : String) : Prop where
  nonempty : rule ≠ ""
  first : ∀ c ∈ rule.toList.head?, Text.isBlank c = false
  last : ∀ c ∈ rule.toList.getLast?, Text.isBlank c = false
  oneLine : '\n' ∉ rule.toList
  notComment : rule.toList.head? ≠ some '!'

theorem isBlank_of_head?_line {line : List Char} (h : line ∈ lines content) :
    ∀ c ∈ line.head?, Text.isBlank c = false := by
  obtain ⟨part, -, rfl⟩ := List.mem_map.mp h
  exact fun c hc => Text.isBlank_of_head?_trim hc

theorem isCanonical_of_mem_rules (h : rule ∈ rules content) : IsCanonical rule := by
  obtain ⟨line, hfound, rfl⟩ := List.mem_map.mp h
  obtain ⟨hline, hrule⟩ := List.mem_filter.mp hfound
  simp only [isRule, isComment, Bool.and_eq_true, Bool.not_eq_true', List.isEmpty_eq_false_iff,
    decide_eq_false_iff_not] at hrule
  constructor
  case nonempty => simpa using hrule.1
  all_goals rw [String.toList_ofList]
  case first => exact isBlank_of_head?_line hline
  case last => exact isBlank_of_getLast?_line hline
  case oneLine => exact newline_notMem_line hline
  case notComment => exact hrule.2

namespace IsCanonical

/-- Writing and decoding leave every character, and there is nothing to split off or to trim. -/
theorem lines_bytesOf (h : IsCanonical rule) : lines (bytesOf rule) = [rule.toList] := by
  rw [lines, bytesOf, Utf8.decodeLossy_encode, Text.splitAt_of_notMem h.oneLine, List.map_singleton,
    Text.trim_eq_self h.first h.last]

theorem isRule (h : IsCanonical rule) : isRule rule.toList = true := by
  have hne : rule.toList ≠ [] := by simpa using h.nonempty
  simp [Content.isRule, isComment, hne, h.notComment]

theorem rules_bytesOf (h : IsCanonical rule) : rules (bytesOf rule) = [rule] := by
  rw [rules, h.lines_bytesOf, List.filter_cons_of_pos h.isRule, List.filter_nil,
    List.map_singleton, String.ofList_toList]

theorem title_bytesOf (h : IsCanonical rule) : (Summary.ofBytes (bytesOf rule)).title = none := by
  have hcomment : isComment rule.toList = false := by simpa [isComment] using h.notComment
  rw [Summary.ofBytes_eq, h.lines_bytesOf, List.findSome?_singleton,
    title?_of_not_isComment hcomment]
  rfl

end IsCanonical

/-- The texts that come through writing and reading are those in canonical form. -/
theorem rules_intercalate_eq_self_iff {texts : List String} :
    rules (bytesOf ("\n".intercalate texts)) = texts ↔ ∀ text ∈ texts, IsCanonical text := by
  constructor
  · intro h text htext
    rw [← h] at htext
    exact isCanonical_of_mem_rules htext
  · intro h
    rw [rules_intercalate]
    induction texts with
    | nil => rfl
    | cons text rest ih =>
      obtain ⟨htext, hrest⟩ := List.forall_mem_cons.mp h
      rw [List.flatMap_cons, htext.rules_bytesOf, ih hrest, List.singleton_append]

theorem title_intercalate {texts : List String} (h : ∀ text ∈ texts, IsCanonical text) :
    (Summary.ofBytes (bytesOf ("\n".intercalate texts))).title = none := by
  induction texts with
  | nil => rfl
  | cons text rest ih =>
    obtain ⟨htext, hrest⟩ := List.forall_mem_cons.mp h
    cases rest with
    | nil => simpa using htext.title_bytesOf
    | cons next others =>
      rw [bytesOf_intercalate_cons_cons, Summary.title_append, htext.title_bytesOf, ih hrest]
      rfl

theorem rulesOf_ofUserRules (texts : List String) :
    RuleSet.rulesOf (Filter.ofUserRules texts) = rules (bytesOf ("\n".intercalate texts)) :=
  rfl

/-- Every rule of every content is in canonical form. Written one a line, the rules are read back,
as many as they were and without a title, so as local rules they compile to themselves. -/
theorem rules_are_canonical (content : Bytes) :
    (∀ rule ∈ rules content, IsCanonical rule) ∧
    rules (bytesOf ("\n".intercalate (rules content))) = rules content ∧
    Summary.ofBytes (bytesOf ("\n".intercalate (rules content))) =
      { ruleCount := (Summary.ofBytes content).ruleCount, title := none } ∧
    RuleSet.compile [Filter.ofUserRules (rules content)] =
      .ok { filters := [{ id := userFilterId, rules := rules content }]
            totalRules := (Summary.ofBytes content).ruleCount } := by
  have hcanonical : ∀ rule ∈ rules content, IsCanonical rule :=
    fun rule hrule => isCanonical_of_mem_rules hrule
  have hread : rules (bytesOf ("\n".intercalate (rules content))) = rules content :=
    rules_intercalate_eq_self_iff.mpr hcanonical
  have hcount : (Summary.ofBytes content).ruleCount = (rules content).length := by
    rw [Summary.ofBytes_eq]
  have hsame : (Summary.ofBytes (bytesOf ("\n".intercalate (rules content)))).ruleCount =
      (Summary.ofBytes content).ruleCount := by
    rw [Summary.ofBytes_eq, hread, hcount]
  refine ⟨hcanonical, hread, ?_, ?_⟩
  · rw [← hsame, ← title_intercalate hcanonical]
  · simp only [RuleSet.compile, List.foldlM_cons, List.foldlM_nil, bind_pure, RuleSet.addFilter,
      rulesOf_ofUserRules, hread, hcount]
    simp [Filter.ofUserRules, Filter.setContent]

theorem rules_are_canonical_indented :
    "||a^" ∈ rules (bytesOf "\t||a^ \r\n! b") ∧ IsCanonical "||a^" ∧
      rules (bytesOf ("\n".intercalate (rules (bytesOf "\t||a^ \r\n! b")))) = ["||a^"] := by
  have hrules : rules (bytesOf "\t||a^ \r\n! b") = ["||a^"] := by decide +kernel
  obtain ⟨hcanonical, hread, -⟩ := rules_are_canonical (bytesOf "\t||a^ \r\n! b")
  have hmem : "||a^" ∈ rules (bytesOf "\t||a^ \r\n! b") := by simp [hrules]
  exact ⟨hmem, hcanonical _ hmem, hread.trans hrules⟩

end FilterLists.Content
