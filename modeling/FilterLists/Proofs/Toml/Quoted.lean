import Mathlib
import FilterLists.Toml.Quoted

/-! A quoted text is read back as it was written, in whichever style. -/
namespace FilterLists.Toml.Quoted

@[simp]
theorem prepend?_some (c : Char) (text rest : List Char) :
    prepend? (some c) (some (text, rest)) = some (c :: text, rest) := rfl

/-- What may follow a quoted text: not another quote. -/
def NoQuote (rest : List Char) : Prop :=
  rest.head? ≠ some '"' ∧ rest.head? ≠ some '\''

def IsRaw (c : Char) : Prop :=
  needsEscape c = false

theorem ne_return_of_isRaw {c : Char} (h : IsRaw c) : c ≠ '\r' := by
  rintro rfl
  exact absurd h (by unfold IsRaw; decide)

theorem isPlain_of_isRaw {c : Char} (h : IsRaw c) (hne : c ≠ '\n') : isPlain c = true := by
  simp only [IsRaw, needsEscape, Bool.or_eq_false_iff, Bool.and_eq_false_iff, decide_eq_false_iff_not] at h
  simp only [isPlain, Bool.or_eq_true, Bool.and_eq_true, decide_eq_true_eq]
  obtain ⟨hcontrol, hdelete⟩ := h
  by_cases htab : c = '\t'
  · exact .inl htab
  · have hle : 0x20 ≤ c.toNat := by
      rcases hcontrol with (h | h) | h
      · omega
      · exact absurd htab (by simpa using h)
      · exact absurd hne (by simpa using h)
    exact .inr ⟨hle, hdelete⟩

section Escapes

theorem numbered?_hexDigits : ∀ n < 0x80, ∃ a b c d, hexDigits 4 n = [a, b, c, d] ∧
    numbered? [a, b, c, d] = some (Char.ofNat n) := by
  have h : ∀ n < 0x80, (hexDigits 4 n).length = 4 ∧
      numbered? (hexDigits 4 n) = some (Char.ofNat n) := by
    decide +kernel
  intro n hn
  obtain ⟨hlength, hread⟩ := h n hn
  match hdigits : hexDigits 4 n, hlength with
  | [a, b, c, d], _ => exact ⟨a, b, c, d, rfl, hdigits ▸ hread⟩

/-- How a character other than a quote is written between double quotes. -/
theorem escaped_cases (long : Bool) (c : Char) :
    (∃ mark, escaped long c = ['\\', mark] ∧ escape? mark = some c ∧
      mark ≠ 'x' ∧ mark ≠ 'u' ∧ mark ≠ 'U' ∧ mark ≠ ' ' ∧ mark ≠ '\t' ∧ mark ≠ '\n' ∧ mark ≠ '\r') ∨
    (∃ a b d e, escaped long c = ['\\', 'u', a, b, d, e] ∧ numbered? [a, b, d, e] = some c) ∨
    (escaped long c = [c] ∧ c ≠ '\\' ∧ c ≠ '\r' ∧ (isPlain c = true ∨ long = true ∧ c = '\n')) := by
  have heq : ∀ {n}, c.toNat = n → c = Char.ofNat n := fun h => h ▸ (Char.ofNat_toNat c).symm
  unfold escaped
  split_ifs with hslash hline hlong htab hreturn hback hfeed hcontrol
  · exact .inl ⟨'\\', rfl, by simp [escape?, hslash], by decide⟩
  · subst hline
    exact .inr (.inr ⟨rfl, by decide, by decide, .inr ⟨hlong, rfl⟩⟩)
  · exact .inl ⟨'n', rfl, by simp [escape?, hline], by decide⟩
  · exact .inl ⟨'t', rfl, by simp [escape?, htab], by decide⟩
  · exact .inl ⟨'r', rfl, by simp [escape?, hreturn], by decide⟩
  · exact .inl ⟨'b', rfl, by simp [escape?, heq hback], by decide⟩
  · exact .inl ⟨'f', rfl, by simp [escape?, heq hfeed], by decide⟩
  · right; left
    obtain ⟨a, b, d, e, hdigits, hread⟩ := numbered?_hexDigits c.toNat (by omega)
    exact ⟨a, b, d, e, by rw [hdigits], by rw [hread, Char.ofNat_toNat]⟩
  · refine .inr (.inr ⟨rfl, hslash, hreturn, .inl ?_⟩)
    simp only [not_or] at hcontrol
    simp only [isPlain, Bool.or_eq_true, Bool.and_eq_true, decide_eq_true_eq]
    exact .inr ⟨Nat.not_lt.mp hcontrol.1, by simpa using hcontrol.2⟩

theorem head?_escaped {long : Bool} {c : Char} (hquote : c ≠ '"') (rest : List Char) :
    (escaped long c ++ rest).head? ≠ some '"' := by
  rcases escaped_cases long c with ⟨mark, heq, _⟩ | ⟨a, b, d, e, heq, _⟩ | ⟨heq, _⟩ <;>
    simp [heq, hquote]

end Escapes

section Basic

theorem readBasic_plain {c : Char} (hquote : c ≠ '"') (hslash : c ≠ '\\') (rest : List Char) :
    readBasic (c :: rest) = prepend? (plain? c) (readBasic rest) := by
  rw [readBasic.eq_def]
  split <;> simp_all

theorem readBasic_escape {mark : Char} (hx : mark ≠ 'x') (hu : mark ≠ 'u') (hU : mark ≠ 'U')
    (rest : List Char) :
    readBasic ('\\' :: mark :: rest) = prepend? (escape? mark) (readBasic rest) := by
  rw [readBasic.eq_def]
  split <;> grind

theorem readBasic_unicode (a b c d : Char) (rest : List Char) :
    readBasic ('\\' :: 'u' :: a :: b :: c :: d :: rest) =
      prepend? (numbered? [a, b, c, d]) (readBasic rest) := rfl

theorem readBasic_escaped {c : Char} (hquote : c ≠ '"') (rest : List Char) :
    readBasic (escaped false c ++ rest) = prepend? (some c) (readBasic rest) := by
  rcases escaped_cases false c with ⟨mark, heq, hread, hx, hu, hU, _⟩ | ⟨a, b, d, e, heq, hread⟩ |
    ⟨heq, hslash, _, hplain⟩
  · rw [heq, ← hread]
    exact readBasic_escape hx hu hU rest
  · rw [heq, ← hread]
    exact readBasic_unicode a b d e rest
  · have hc : plain? c = some c := by simpa [plain?] using hplain
    rw [heq, ← hc]
    exact readBasic_plain hquote hslash rest

theorem readBasic_escapedText (quotes : Nat) (text rest : List Char) :
    readBasic (escapedText false quotes text ++ '"' :: rest) = some (text, rest) := by
  induction text generalizing quotes with
  | nil => simp [escapedText, readBasic]
  | cons c text ih =>
    unfold escapedText
    by_cases hquote : c = '"'
    · subst hquote
      simp only [if_true, Bool.false_and, Bool.false_eq_true, if_false, List.cons_append]
      rw [readBasic_escape (by decide) (by decide) (by decide), ih]
      rfl
    · rw [if_neg hquote, List.append_assoc, readBasic_escaped hquote, ih]
      rfl

end Basic

section Literal

theorem readLiteral_append {text : List Char} (hraw : ∀ c ∈ text, IsRaw c)
    (hline : '\n' ∉ text) (hquote : '\'' ∉ text) (rest : List Char) :
    readLiteral (text ++ '\'' :: rest) = some (text, rest) := by
  induction text with
  | nil => simp [readLiteral]
  | cons c text ih =>
    obtain ⟨hc, hrest⟩ := List.forall_mem_cons.mp hraw
    obtain ⟨hne, hline⟩ := not_or.mp (fun h => hline (List.mem_cons.mpr h))
    obtain ⟨hother, hquote⟩ := not_or.mp (fun h => hquote (List.mem_cons.mpr h))
    have hplain : plain? c = some c := by simp [plain?, isPlain_of_isRaw hc (Ne.symm hne)]
    rw [List.cons_append, readLiteral, ih hrest hline hquote, hplain]
    · rfl
    · exact Ne.symm hother

end Literal

section LongBasic
variable {c : Char} {rest : List Char}

/-- The last three of the quotes end the text; up to two before them are part of it. -/
theorem readLongBasic_end (hrest : rest.head? ≠ some '"') {n : Nat} (hn : n ≤ 2) :
    readLongBasic false (List.replicate (n + 3) '"' ++ rest) = some (List.replicate n '"', rest) := by
  obtain rfl | rfl | rfl : n = 2 ∨ n = 1 ∨ n = 0 := by omega
  · rfl
  all_goals
    simp only [List.replicate, List.cons_append, List.nil_append]
    rw [readLongBasic.eq_def]
    split <;> grind

/-- A quote with fewer than two more behind it is one of the text, as any plain character is. -/
theorem readLongBasic_cons (hslash : c ≠ '\\') (hreturn : c ≠ '\r')
    (hend : c = '"' → ∀ more, rest ≠ '"' :: '"' :: more) :
    readLongBasic false (c :: rest) = prepend? (longPlain? c) (readLongBasic false rest) := by
  rw [readLongBasic.eq_def]
  split <;> grind

theorem readLongBasic_escape {mark : Char} (hx : mark ≠ 'x') (hu : mark ≠ 'u') (hU : mark ≠ 'U')
    (hend : endsLine (mark :: rest) = false) :
    readLongBasic false ('\\' :: mark :: rest) =
      prepend? (escape? mark) (readLongBasic false rest) := by
  rw [readLongBasic.eq_def]
  split <;> grind

theorem readLongBasic_escaped (hquote : c ≠ '"') :
    readLongBasic false (escaped true c ++ rest) =
      prepend? (some c) (readLongBasic false rest) := by
  rcases escaped_cases true c with
    ⟨mark, heq, hread, hx, hu, hU, hspace, htab, hline, hreturn⟩ | ⟨a, b, d, e, heq, hread⟩ |
    ⟨heq, hslash, hreturn, hplain⟩
  · have hend : endsLine (mark :: rest) = false := by
      have hblank : isSpace mark = false := by simp [isSpace, hspace, htab]
      simp only [endsLine, List.dropWhile_cons, hblank, Bool.false_eq_true, if_false]
      unfold afterNewline?
      split <;> simp_all
    rw [heq, ← hread]
    exact readLongBasic_escape hx hu hU hend
  · rw [heq, ← hread]
    rfl
  · have hc : longPlain? c = some c := by
      rcases hplain with h | ⟨_, rfl⟩
      · simp [longPlain?, h]
      · decide
    rw [heq, ← hc]
    exact readLongBasic_cons hslash hreturn (fun h => absurd h hquote)

/-- After a quote, two more follow only where the text is at its end. -/
theorem escapedText_of_quotes {quotes : Nat} {text more : List Char} (hquotes : 1 ≤ quotes)
    (h : escapedText true quotes text ++ '"' :: '"' :: '"' :: rest = '"' :: '"' :: more) :
    text = [] ∨ (text = ['"'] ∧ quotes = 1) := by
  have hapart : ∀ {c tail}, c ≠ '"' → escaped true c ++ tail ≠ '"' :: (escaped true c ++ tail).tail :=
    fun hc heq => head?_escaped hc _ (by rw [heq]; rfl)
  cases text with
  | nil => exact .inl rfl
  | cons c text =>
    right
    unfold escapedText at h
    by_cases hc : c = '"'
    · subst hc
      by_cases hfew : quotes < 2
      · simp only [hfew, Bool.true_and, decide_true, if_true, List.cons_append] at h
        obtain rfl : quotes = 1 := by omega
        cases text with
        | nil => exact ⟨rfl, rfl⟩
        | cons d text =>
          unfold escapedText at h
          by_cases hd : d = '"'
          · simp [hd] at h
          · have hhead := congrArg (fun s => s.tail.head?) h
            simp only [hd, if_false, List.tail_cons, List.append_assoc, List.head?_cons] at hhead
            exact absurd hhead (head?_escaped hd _)
      · simp [hfew] at h
    · have hhead := congrArg List.head? h
      simp only [hc, if_false, List.append_assoc, List.head?_cons] at hhead
      exact absurd hhead (head?_escaped hc _)

theorem readLongBasic_escapedText (hrest : rest.head? ≠ some '"') (quotes : Nat)
    (text : List Char) :
    readLongBasic false (escapedText true quotes text ++ '"' :: '"' :: '"' :: rest) =
      some (text, rest) := by
  induction text generalizing quotes with
  | nil => exact readLongBasic_end hrest (Nat.zero_le 2)
  | cons c text ih =>
    unfold escapedText
    by_cases hc : c = '"'
    · subst hc
      by_cases hfew : quotes < 2
      · simp only [hfew, Bool.true_and, decide_true, if_true, List.cons_append]
        by_cases hend : ∃ more,
            escapedText true (quotes + 1) text ++ '"' :: '"' :: '"' :: rest = '"' :: '"' :: more
        · obtain ⟨more, hmore⟩ := hend
          rcases escapedText_of_quotes (Nat.le_add_left 1 quotes) hmore with rfl | ⟨rfl, hone⟩
          · exact readLongBasic_end hrest (Nat.le_succ 1)
          · obtain rfl : quotes = 0 := by omega
            exact readLongBasic_end hrest (Nat.le_refl 2)
        · rw [readLongBasic_cons (by decide) (by decide) (fun _ more h => hend ⟨more, h⟩), ih]
          rfl
      · simp only [hfew, Bool.true_and, decide_false, Bool.false_eq_true, if_true, if_false,
          List.cons_append]
        rw [readLongBasic_escape (by decide) (by decide) (by decide) (by rfl), ih]
        rfl
    · rw [if_neg hc, List.append_assoc, readLongBasic_escaped hc, ih]
      rfl

end LongBasic

section Runs

theorem le_longestRun (q : Char) (current longest : Nat) (text : List Char) :
    longest ≤ longestRun q current longest text := by
  induction text generalizing current longest with
  | nil => exact Nat.le_refl longest
  | cons c text ih =>
    unfold longestRun
    split
    · exact Nat.le_trans (Nat.le_max_left _ _) (ih _ _)
    · exact ih _ _

theorem add_le_longestRun {q : Char} {current longest : Nat} (h : current ≤ longest) (n : Nat)
    (text : List Char) :
    current + n ≤ longestRun q current longest (List.replicate n q ++ text) := by
  induction n generalizing current longest with
  | zero => exact Nat.le_trans h (le_longestRun q current longest text)
  | succ n ih =>
    rw [List.replicate_succ, List.cons_append, longestRun, if_pos rfl]
    have := ih (Nat.le_max_right longest (current + 1))
    omega

theorem le_longestRun_of_infix {q : Char} {n current longest : Nat} {text : List Char}
    (h : current ≤ longest) (hrun : List.replicate n q <:+: text) :
    n ≤ longestRun q current longest text := by
  induction text generalizing current longest with
  | nil =>
    obtain rfl : n = 0 := by simpa using hrun
    exact Nat.zero_le _
  | cons c text ih =>
    rcases List.infix_cons_iff.mp hrun with ⟨more, hmore⟩ | hrun
    · rw [← hmore]
      exact Nat.le_trans (Nat.le_add_left n current) (add_le_longestRun h n more)
    · unfold longestRun
      split
      · exact ih (Nat.le_max_right _ _) hrun
      · exact ih (Nat.zero_le _) hrun

theorem one_le_longestRun {q : Char} {text : List Char} (h : q ∈ text) :
    1 ≤ longestRun q 0 0 text :=
  le_longestRun_of_infix (Nat.le_refl 0) ((List.singleton_infix_iff q text).mpr h)

end Runs

section LongLiteral
variable {c : Char} {rest : List Char}

theorem readLongLiteral_end (hrest : rest.head? ≠ some '\'') {n : Nat} (hn : n ≤ 2) :
    readLongLiteral (List.replicate (n + 3) '\'' ++ rest) = some (List.replicate n '\'', rest) := by
  obtain rfl | rfl | rfl : n = 2 ∨ n = 1 ∨ n = 0 := by omega
  · rfl
  all_goals
    simp only [List.replicate, List.cons_append, List.nil_append]
    rw [readLongLiteral.eq_def]
    split <;> grind

theorem readLongLiteral_cons (hreturn : c ≠ '\r')
    (hend : c = '\'' → ∀ more, rest ≠ '\'' :: '\'' :: more) :
    readLongLiteral (c :: rest) = prepend? (longPlain? c) (readLongLiteral rest) := by
  rw [readLongLiteral.eq_def]
  split <;> grind

theorem longPlain?_of_isRaw (h : IsRaw c) : longPlain? c = some c := by
  by_cases hline : c = '\n'
  · simp [longPlain?, hline]
  · simp [longPlain?, isPlain_of_isRaw h hline]

theorem readLongLiteral_append {text : List Char} (hraw : ∀ c ∈ text, IsRaw c)
    (hruns : ¬ List.replicate 3 '\'' <:+: text) (hrest : rest.head? ≠ some '\'') :
    readLongLiteral (text ++ '\'' :: '\'' :: '\'' :: rest) = some (text, rest) := by
  induction text with
  | nil => exact readLongLiteral_end hrest (Nat.zero_le 2)
  | cons c text ih =>
    obtain ⟨hc, hraw⟩ := List.forall_mem_cons.mp hraw
    have hread := ih hraw (fun h => hruns (h.trans (List.suffix_cons c text).isInfix))
    by_cases hend : c = '\'' ∧ (text = [] ∨ text = ['\''])
    · obtain ⟨rfl, rfl | rfl⟩ := hend
      · exact readLongLiteral_end hrest (Nat.le_succ 1)
      · exact readLongLiteral_end hrest (Nat.le_refl 2)
    · have hmore : c = '\'' → ∀ more, text ++ '\'' :: '\'' :: '\'' :: rest ≠ '\'' :: '\'' :: more := by
        rintro rfl more h
        match text, h with
        | [], _ => exact hend ⟨rfl, .inl rfl⟩
        | [d], h => exact hend ⟨rfl, .inr (by simp_all)⟩
        | d :: e :: text, h =>
          refine hruns ⟨[], text, ?_⟩
          simp_all [List.replicate]
      rw [List.cons_append, readLongLiteral_cons (ne_return_of_isRaw hc) hmore, hread, longPlain?_of_isRaw hc]
      rfl

end LongLiteral

section Style
variable {text : List Char}

theorem raw_of_styleFor (h : styleFor text = .literal ∨ styleFor text = .longLiteral) :
    ∀ c ∈ text, IsRaw c := by
  have hcontrol : text.any needsEscape = false := by
    by_contra hne
    rw [Bool.not_eq_false] at hne
    simp [styleFor, hne] at h
    split at h <;> simp at h
  simpa [IsRaw] using hcontrol

theorem ne_nil_of_styleFor (h : styleFor text = .literal) : text ≠ [] := by
  rintro rfl
  exact absurd h (by decide)

theorem not_mem_of_styleFor (h : styleFor text = .literal) : '\n' ∉ text ∧ '\'' ∉ text := by
  have hcond : longestRun '\'' 0 0 text = 0 ∧ text.contains '\n' = false := by
    simp only [styleFor] at h
    grind
  exact ⟨by simpa using hcond.2,
    fun hmem => absurd (one_le_longestRun hmem) (by simp [hcond.1])⟩

theorem noRun_of_styleFor (h : styleFor text = .longLiteral) :
    ¬ List.replicate 3 '\'' <:+: text := by
  have hcond : longestRun '\'' 0 0 text ≤ 2 := by
    simp only [styleFor] at h
    grind
  intro hrun
  have := le_longestRun_of_infix (Nat.le_refl 0) hrun
  omega

end Style

section Opening
variable {text body : List Char}

theorem afterOpening_opening
    (h : '\n' ∉ text → body.head? ≠ some '\n' ∧ body.head? ≠ some '\r') :
    afterOpening (opening text ++ body) = body := by
  by_cases hline : '\n' ∈ text
  · simp [opening, afterOpening, afterNewline?, hline]
  · obtain ⟨hnewline, hreturn⟩ := h hline
    have hnone : afterNewline? body = none := by
      unfold afterNewline?
      split <;> simp_all
    simp [opening, afterOpening, hline, hnone]

theorem head?_escapedText_append {rest : List Char} (hline : '\n' ∉ text) :
    (escapedText true 0 text ++ '"' :: rest).head? ≠ some '\n' ∧
      (escapedText true 0 text ++ '"' :: rest).head? ≠ some '\r' := by
  cases text with
  | nil => simp [escapedText]
  | cons c text =>
    obtain ⟨hc, -⟩ := not_or.mp (fun h => hline (List.mem_cons.mpr h))
    unfold escapedText
    split
    · simp
    · rcases escaped_cases true c with ⟨mark, heq, _⟩ | ⟨a, b, d, e, heq, _⟩ | ⟨heq, _, hreturn, _⟩
      · simp [heq]
      · simp [heq]
      · simp [heq, hreturn, Ne.symm hc]

end Opening

section RoundTrip
variable {text rest : List Char}

theorem read?_basic (h : NoQuote rest) :
    read? ('"' :: escapedText false 0 text ++ '"' :: rest) = some (text, rest) := by
  have hshort : ∀ more, escapedText false 0 text ++ '"' :: rest ≠ '"' :: '"' :: more := by
    intro more heq
    cases text with
    | nil => exact h.1 (by simp_all [escapedText])
    | cons c text =>
      unfold escapedText at heq
      split at heq
      · simp at heq
      · next hc =>
        have hhead := congrArg List.head? heq
        rw [List.append_assoc] at hhead
        exact absurd hhead (head?_escaped hc _)
  rw [← readBasic_escapedText 0 text rest, List.cons_append]
  unfold read?
  split
  · next heq => exact absurd (List.cons.inj heq).2 (hshort _)
  · next heq => simp at heq
  · rfl

theorem read?_literal (hne : text ≠ []) (hraw : ∀ c ∈ text, IsRaw c) (hline : '\n' ∉ text)
    (hquote : '\'' ∉ text) : read? ('\'' :: text ++ '\'' :: rest) = some (text, rest) := by
  obtain ⟨c, tail, rfl⟩ := List.exists_cons_of_ne_nil hne
  have hc : c ≠ '\'' := fun h => hquote (h ▸ List.mem_cons_self)
  rw [← readLiteral_append hraw hline hquote rest]
  simp [read?, hc, readShort?]

theorem read?_longBasic (h : NoQuote rest) :
    read? ('"' :: '"' :: '"' :: (opening text ++ (escapedText true 0 text ++ '"' :: '"' :: '"' :: rest))) =
      some (text, rest) := by
  rw [read?, afterOpening_opening head?_escapedText_append]
  exact readLongBasic_escapedText h.1 0 text

theorem read?_longLiteral (h : NoQuote rest) (hraw : ∀ c ∈ text, IsRaw c)
    (hruns : ¬ List.replicate 3 '\'' <:+: text) :
    read? ('\'' :: '\'' :: '\'' :: (opening text ++ (text ++ '\'' :: '\'' :: '\'' :: rest))) =
      some (text, rest) := by
  have hhead : '\n' ∉ text → (text ++ '\'' :: '\'' :: '\'' :: rest).head? ≠ some '\n' ∧
      (text ++ '\'' :: '\'' :: '\'' :: rest).head? ≠ some '\r' := by
    intro hline
    cases text with
    | nil => simp
    | cons c text =>
      obtain ⟨hc, -⟩ := not_or.mp (fun h => hline (List.mem_cons.mpr h))
      simp [Ne.symm hc, ne_return_of_isRaw (hraw _ List.mem_cons_self)]
  rw [read?, afterOpening_opening hhead]
  exact readLongLiteral_append hraw hruns h.2

theorem read?_write (h : NoQuote rest) (text : List Char) :
    read? (write text ++ rest) = some (text, rest) := by
  unfold write
  cases hstyle : styleFor text with
  | basic => simpa using read?_basic h
  | literal =>
    obtain ⟨hline, hquote⟩ := not_mem_of_styleFor hstyle
    simpa using read?_literal (ne_nil_of_styleFor hstyle) (raw_of_styleFor (.inl hstyle)) hline hquote
  | longBasic => simpa using read?_longBasic h
  | longLiteral =>
    simpa using read?_longLiteral h (raw_of_styleFor (.inr hstyle)) (noRun_of_styleFor hstyle)

/-- A quoted text begins with a quote, which tells it apart from other values. -/
theorem head?_write (text : List Char) :
    ∃ tail, write text = '"' :: tail ∨ write text = '\'' :: tail := by
  unfold write
  cases styleFor text <;> simp

end RoundTrip

end FilterLists.Toml.Quoted
