import FilterLists.Proofs.Text.Lines
import FilterLists.RuleSet

/-! A content is read line by line: two contents that are joined by a line feed parse as each of
them does alone. The count of the rules and the title are those of the same lines as the rules. -/
namespace FilterLists.Content
variable {line : List Char}

theorem lines_append (a b : Bytes) : lines (a ++ 0x0A :: b) = lines a ++ lines b := by
  have hnewline : Char.ofNat (0x0A : UInt8).toNat = '\n' := rfl
  rw [lines, Utf8.decodeLossy_append_ascii (by decide), hnewline, Text.splitAt_append,
    List.map_append, ← lines, ← lines]

theorem rules_append (a b : Bytes) : rules (a ++ 0x0A :: b) = rules a ++ rules b := by
  simp only [rules, lines_append, List.filter_append, List.map_append]

theorem title?_of_not_isComment (h : isComment line = false) : title? line = none := by
  cases line with
  | nil => rfl
  | cons c rest =>
    have hc : ¬ '!' = c := by simpa [isComment, eq_comm] using h
    simp [title?, Text.after?, hc]

namespace Summary

/-- A line adds to the count if it is a rule, and gives the title if it has one and there was none
before it. -/
theorem read_eq (s : Summary) (line : List Char) :
    s.read line =
      { ruleCount := s.ruleCount + if isRule line then 1 else 0
        title := s.title.or ((title? line).map String.ofList) } := by
  obtain ⟨ruleCount, title⟩ := s
  unfold read isRule
  cases hempty : line.isEmpty with
  | true =>
    have hnone : title? line = none := by
      rw [List.isEmpty_iff.mp hempty]
      rfl
    simp [hnone]
  | false =>
    cases hcomment : isComment line with
    | true => cases title <;> simp
    | false => simp [title?_of_not_isComment hcomment]

theorem foldl_read (s : Summary) (texts : List (List Char)) :
    texts.foldl read s =
      { ruleCount := s.ruleCount + texts.countP isRule
        title := s.title.or ((texts.findSome? title?).map String.ofList) } := by
  induction texts generalizing s with
  | nil => simp
  | cons line rest ih =>
    have hcount : s.ruleCount + (if isRule line then 1 else 0) + rest.countP isRule =
        s.ruleCount + (rest.countP isRule + if isRule line then 1 else 0) := by omega
    rw [List.foldl_cons, ih, read_eq, List.countP_cons, List.findSome?_cons, hcount]
    cases title? line with
    | none => simp
    | some title => simp

/-- The count is that of the collected rules, and the title that of the first line with one. -/
theorem ofBytes_eq (content : Bytes) :
    ofBytes content =
      { ruleCount := (rules content).length
        title := ((lines content).findSome? title?).map String.ofList } := by
  rw [ofBytes, foldl_read, rules, List.length_map, List.countP_eq_length_filter]
  simp

theorem title_append (a b : Bytes) :
    (ofBytes (a ++ 0x0A :: b)).title = (ofBytes a).title.or (ofBytes b).title := by
  simp only [ofBytes_eq, lines_append, List.findSome?_append]
  cases (lines a).findSome? title? <;> rfl

end Summary

theorem bytesOf_append (a b : String) : bytesOf (a ++ b) = bytesOf a ++ bytesOf b := by
  rw [bytesOf, String.toList_append, Utf8.encode, List.flatMap_append]
  rfl

theorem bytesOf_intercalate_cons_cons (first second : String) (others : List String) :
    bytesOf ("\n".intercalate (first :: second :: others)) =
      bytesOf first ++ 0x0A :: bytesOf ("\n".intercalate (second :: others)) := by
  rw [String.intercalate_cons_cons, bytesOf_append, bytesOf_append, List.append_assoc]
  rfl

/-- Texts that are joined by line feeds may have line feeds of their own. -/
theorem rules_intercalate (texts : List String) :
    rules (bytesOf ("\n".intercalate texts)) = texts.flatMap (fun text => rules (bytesOf text)) := by
  induction texts with
  | nil => rfl
  | cons text rest ih =>
    cases rest with
    | nil => simp
    | cons next others =>
      rw [List.flatMap_cons, ← ih, bytesOf_intercalate_cons_cons, rules_append]

/-- Parsing respects line feeds, in well-formed UTF-8 and in any other bytes. The rules of a joined
content are those of its parts in order, the counts add up and agree with the rules, and the title
is that of the first part that has one. So the local rules are read one by one. -/
theorem parses_partByPart (a b : Bytes) (texts : List String) :
    rules (a ++ 0x0A :: b) = rules a ++ rules b ∧
      (Summary.ofBytes (a ++ 0x0A :: b)).ruleCount =
        (Summary.ofBytes a).ruleCount + (Summary.ofBytes b).ruleCount ∧
      (Summary.ofBytes a).ruleCount = (rules a).length ∧
      (Summary.ofBytes (a ++ 0x0A :: b)).title =
        (Summary.ofBytes a).title.or (Summary.ofBytes b).title ∧
      RuleSet.rulesOf (Filter.ofUserRules texts) =
        texts.flatMap (fun text => rules (bytesOf text)) := by
  have hrules : rules (a ++ 0x0A :: b) = rules a ++ rules b := rules_append a b
  refine ⟨hrules, ?_, ?_, Summary.title_append a b, rules_intercalate texts⟩
  · simp only [Summary.ofBytes_eq, hrules, List.length_append]
  · rw [Summary.ofBytes_eq]

/-- A sequence that breaks off before the line feed is lost with its own line. -/
example : rules ([0x61, 0xE2, 0x82] ++ 0x0A :: bytesOf "b") = ["a\uFFFD", "b"] := by
  decide +kernel

end FilterLists.Content
