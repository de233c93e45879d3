import FilterLists.Proofs.Parsing
import FilterLists.Proofs.Text.Blank

/-! The layout of a content makes no difference to what is read from it. No malformed part swallows
an ASCII blank, and lines are trimmed after they are decoded, so blanks around a line are lost
without a trace. A carriage return before a line feed is such a blank. -/
namespace FilterLists.Content
variable {b : UInt8}

/-- A blank of ASCII that ends no line. -/
def isPadding (b : UInt8) : Bool :=
  b = 0x20 || b = 0x09 || b = 0x0D || b = 0x0B || b = 0x0C

theorem of_isPadding (h : isPadding b = true) :
    b ≤ 0x7F ∧ Text.isBlank (Char.ofNat b.toNat) = true ∧ Char.ofNat b.toNat ≠ '\n' := by
  simp only [isPadding, Bool.or_eq_true, decide_eq_true_eq] at h
  rcases h with (((rfl | rfl) | rfl) | rfl) | rfl <;> decide

theorem lines_cons_padding (hb : isPadding b = true) (content : Bytes) :
    lines (b :: content) = lines content := by
  obtain ⟨hascii, hblank, hnewline⟩ := of_isPadding hb
  obtain ⟨first, others, hplain, hlonger⟩ :=
    Text.exists_splitAt_cons hnewline (Utf8.decodeLossy content)
  rw [lines, lines, Utf8.decodeLossy_cons_ascii hascii, hplain, hlonger, List.map_cons,
    List.map_cons, Text.trim_cons hblank]

theorem lines_concat_padding (hb : isPadding b = true) (content : Bytes) :
    lines (content ++ [b]) = lines content := by
  obtain ⟨hascii, hblank, hnewline⟩ := of_isPadding hb
  obtain ⟨others, last, hplain, hlonger⟩ :=
    Text.exists_splitAt_concat hnewline (Utf8.decodeLossy content)
  rw [lines, lines, Utf8.decodeLossy_concat_ascii hascii, hplain, hlonger, List.map_append,
    List.map_append, List.map_singleton, List.map_singleton, Text.trim_concat hblank]

/-- A line between ASCII blanks. -/
structure PaddedLine where
  before : Bytes
  text : Bytes
  after : Bytes
  before_padding : ∀ b ∈ before, isPadding b = true
  after_padding : ∀ b ∈ after, isPadding b = true

def PaddedLine.bytes (l : PaddedLine) : Bytes :=
  l.before ++ l.text ++ l.after

theorem lines_append_padding {padding : Bytes} (h : ∀ b ∈ padding, isPadding b = true)
    (content : Bytes) : lines (content ++ padding) = lines content := by
  induction padding generalizing content with
  | nil => rw [List.append_nil]
  | cons b rest ih =>
    obtain ⟨hb, hrest⟩ := List.forall_mem_cons.mp h
    rw [List.append_cons, ih hrest, lines_concat_padding hb]

theorem lines_padding_append {padding : Bytes} (h : ∀ b ∈ padding, isPadding b = true)
    (content : Bytes) : lines (padding ++ content) = lines content := by
  induction padding with
  | nil => rfl
  | cons b rest ih =>
    obtain ⟨hb, hrest⟩ := List.forall_mem_cons.mp h
    rw [List.cons_append, lines_cons_padding hb, ih hrest]

theorem PaddedLine.lines_bytes (l : PaddedLine) : lines l.bytes = lines l.text := by
  rw [bytes, lines_append_padding l.after_padding, lines_padding_append l.before_padding]

def ofLines (texts : List Bytes) : Bytes :=
  [0x0A].intercalate texts

theorem ofLines_cons_cons (first second : Bytes) (others : List Bytes) :
    ofLines (first :: second :: others) = first ++ 0x0A :: ofLines (second :: others) := by
  rw [ofLines, List.intercalate_cons_cons, List.append_assoc]
  rfl

theorem lines_padded (ls : List PaddedLine) :
    lines (ofLines (ls.map PaddedLine.bytes)) = lines (ofLines (ls.map PaddedLine.text)) := by
  induction ls with
  | nil => rfl
  | cons first rest ih =>
    cases rest with
    | nil => simpa [ofLines] using first.lines_bytes
    | cons second others =>
      simp only [List.map_cons] at ih ⊢
      rw [ofLines_cons_cons, ofLines_cons_cons, lines_append, lines_append, first.lines_bytes, ih]

/-- The content with a carriage return before each line feed. -/
def withCrlf (content : Bytes) : Bytes :=
  content.flatMap fun b => if b = 0x0A then [0x0D, 0x0A] else [b]

/-- The bytes of a line are passed over until its line feed comes. -/
theorem lines_append_withCrlf (line content : Bytes) :
    lines (line ++ withCrlf content) = lines (line ++ content) := by
  induction content generalizing line with
  | nil => rfl
  | cons b rest ih =>
    by_cases hb : b = 0x0A
    · have hline : lines (line ++ [0x0D]) = lines line := lines_concat_padding (by decide) line
      have hrest : lines (withCrlf rest) = lines rest := ih []
      have hsplit : line ++ withCrlf (b :: rest) = line ++ [0x0D] ++ 0x0A :: withCrlf rest := by
        simp [withCrlf, hb]
      rw [hsplit, lines_append, hline, hrest, hb, lines_append]
    · have hkept : line ++ withCrlf (b :: rest) = line ++ [b] ++ withCrlf rest := by
        simp [withCrlf, hb]
      rw [hkept, ih, List.append_assoc, List.singleton_append]

theorem lines_withCrlf (content : Bytes) : lines (withCrlf content) = lines content :=
  lines_append_withCrlf [] content

section SameLines
variable {first second : Bytes}

theorem rules_of_lines (h : lines first = lines second) : rules first = rules second := by
  rw [rules, rules, h]

theorem summary_of_lines (h : lines first = lines second) :
    Summary.ofBytes first = Summary.ofBytes second := by
  rw [Summary.ofBytes, Summary.ofBytes, h]

/-- Among whatever other filters, contents with the same lines compile to the same rules. -/
theorem compile_of_lines (h : lines first = lines second) (f : Filter)
    (before after : List Filter) :
    RuleSet.compile (before ++ f.setContent first :: after) =
      RuleSet.compile (before ++ f.setContent second :: after) := by
  have hrules : RuleSet.rulesOf (f.setContent first) = RuleSet.rulesOf (f.setContent second) :=
    rules_of_lines h
  have hadd : ∀ s : RuleSet,
      s.addFilter (f.setContent first) = s.addFilter (f.setContent second) := by
    intro s
    rw [RuleSet.addFilter, RuleSet.addFilter, hrules]
    rfl
  simp only [RuleSet.compile, List.foldlM_append, List.foldlM_cons, hadd]

end SameLines

/-- Blanks around lines and the kind of line ends make no difference, in well-formed UTF-8 and in
any other bytes: the rules, their number and the title are the same, and so is whatever the filter
compiles to. The lines may even have line feeds of their own. -/
theorem parses_whatever_layout (ls : List PaddedLine) (content : Bytes) :
    let padded := ofLines (ls.map PaddedLine.bytes)
    let plain := ofLines (ls.map PaddedLine.text)
    (rules padded = rules plain ∧ Summary.ofBytes padded = Summary.ofBytes plain) ∧
    (rules (withCrlf content) = rules content ∧
      Summary.ofBytes (withCrlf content) = Summary.ofBytes content) ∧
    ∀ (f : Filter) (before after : List Filter),
      RuleSet.compile (before ++ f.setContent padded :: after) =
        RuleSet.compile (before ++ f.setContent plain :: after) ∧
      RuleSet.compile (before ++ f.setContent (withCrlf content) :: after) =
        RuleSet.compile (before ++ f.setContent content :: after) := by
  have hpadded := lines_padded ls
  have hcrlf := lines_withCrlf content
  exact ⟨⟨rules_of_lines hpadded, summary_of_lines hpadded⟩,
    ⟨rules_of_lines hcrlf, summary_of_lines hcrlf⟩,
    fun f before after => ⟨compile_of_lines hpadded f before after,
      compile_of_lines hcrlf f before after⟩⟩

/-- A sequence that breaks off at the end of a line, and one that begins in the middle, each between
blanks of several kinds. -/
def brokenLines : List PaddedLine :=
  [{ before := [0x20, 0x09], text := [0x61, 0xE2, 0x82], after := [0x0D, 0x20]
     before_padding := by decide +kernel, after_padding := by decide +kernel },
    { before := [0x0C], text := [0x82, 0x62], after := [0x0B, 0x09]
      before_padding := by decide +kernel, after_padding := by decide +kernel }]

/-- The broken sequences take neither the blanks with them nor the line end. -/
theorem parses_brokenLines :
    ofLines (brokenLines.map PaddedLine.bytes) =
        [0x20, 0x09, 0x61, 0xE2, 0x82, 0x0D, 0x20, 0x0A, 0x0C, 0x82, 0x62, 0x0B, 0x09] ∧
      rules (ofLines (brokenLines.map PaddedLine.bytes)) = ["a\uFFFD", "\uFFFDb"] ∧
      rules (withCrlf [0x61, 0xE2, 0x82, 0x0A, 0x82, 0x62]) = ["a\uFFFD", "\uFFFDb"] := by
  obtain ⟨⟨hpadded, -⟩, ⟨hcrlf, -⟩, -⟩ :=
    parses_whatever_layout brokenLines [0x61, 0xE2, 0x82, 0x0A, 0x82, 0x62]
  have hplain : rules [0x61, 0xE2, 0x82, 0x0A, 0x82, 0x62] = ["a\uFFFD", "\uFFFDb"] := by
    decide +kernel
  exact ⟨by decide, hpadded.trans hplain, hcrlf.trans hplain⟩

end FilterLists.Content
