import Mathlib
import FilterLists.Text.Blank

/-! What the elementary operations on texts leave: no blank at the end of a trimmed text, no
separator in a part of a split one, and nothing but the rest after a beginning. -/
namespace FilterLists.Text
variable {c sep : Char} {text part beginning rest : List Char}

theorem trimRight_eq (text : List Char) : trimRight text = text.rdropWhile isBlank :=
  rfl

theorem mem_of_mem_trim (h : c ∈ trim text) : c ∈ text := by
  rw [trim, trimRight_eq] at h
  have hleft : c ∈ trimLeft text := (List.rdropWhile_prefix isBlank _).subset h
  exact (List.dropWhile_suffix isBlank).subset hleft

theorem isBlank_of_getLast?_trim (h : c ∈ (trim text).getLast?) : isBlank c = false := by
  rw [trim, trimRight_eq] at h
  obtain ⟨hne, rfl⟩ := List.mem_getLast?_eq_getLast h
  exact Bool.eq_false_of_not_eq_true (List.rdropWhile_last_not isBlank _ hne)

theorem isBlank_of_head?_trim (h : c ∈ (trim text).head?) : isBlank c = false := by
  obtain ⟨dropped, hdropped⟩ : trim text <+: trimLeft text := List.rdropWhile_prefix isBlank _
  have hleft : (text.dropWhile isBlank).head? = some c := by
    rw [← trimLeft, ← hdropped, List.head?_append, h, Option.some_or]
  have hfirst := List.head?_dropWhile_not isBlank text
  rwa [hleft] at hfirst

/-- A text without blanks at its ends is trimmed already. -/
theorem trim_eq_self (hfirst : ∀ c ∈ text.head?, isBlank c = false)
    (hlast : ∀ c ∈ text.getLast?, isBlank c = false) : trim text = text := by
  have hleft : trimLeft text = text := by
    cases text with
    | nil => rfl
    | cons c others =>
      have hc : isBlank c = false := hfirst c rfl
      rw [trimLeft, List.dropWhile_cons_of_neg (by simp [hc])]
  rw [trim, hleft, trimRight_eq, List.rdropWhile_eq_self_iff]
  intro hne
  rw [hlast _ (List.getLast?_eq_some_getLast hne)]
  exact Bool.false_ne_true

theorem trim_cons (h : isBlank c = true) (text : List Char) : trim (c :: text) = trim text := by
  rw [trim, trimLeft, List.dropWhile_cons_of_pos h]
  rfl

theorem trim_concat (h : isBlank c = true) (text : List Char) :
    trim (text ++ [c]) = trim text := by
  simp only [trim, trimLeft, trimRight_eq]
  cases hleft : text.dropWhile isBlank with
  | nil =>
    have hall : ∀ d ∈ text, isBlank d = true := List.dropWhile_eq_nil_iff.mp hleft
    rw [List.dropWhile_append_of_pos hall, List.dropWhile_cons_of_pos h, List.dropWhile_nil]
  | cons d others =>
    rw [List.dropWhile_append, hleft, List.isEmpty_cons, if_neg Bool.false_ne_true,
      List.rdropWhile_concat_pos isBlank (d :: others) c h]

theorem notMem_of_mem_splitAt (h : part ∈ splitAt sep text) : sep ∉ part := by
  induction text generalizing part with
  | nil =>
    rw [splitAt, List.mem_singleton] at h
    simp [h]
  | cons c rest ih =>
    unfold splitAt at h
    split_ifs at h with hc
    · rcases List.mem_cons.mp h with rfl | htail
      · exact List.not_mem_nil
      · exact ih htail
    · cases hparts : splitAt sep rest with
      | nil =>
        rw [hparts, List.mem_singleton] at h
        simpa [h] using Ne.symm hc
      | cons first others =>
        rw [hparts] at h ih
        rcases List.mem_cons.mp h with rfl | htail
        · have hfirst : sep ∉ first := ih List.mem_cons_self
          simpa [hfirst] using Ne.symm hc
        · exact ih (List.mem_cons_of_mem first htail)

theorem after?_eq_some_iff : after? beginning text = some rest ↔ text = beginning ++ rest := by
  induction beginning generalizing text with
  | nil => simp [after?]
  | cons p ps ih =>
    cases text with
    | nil => simp [after?]
    | cons c cs =>
      by_cases hc : p = c
      · simp [after?, hc, ih]
      · simp [after?, hc, Ne.symm hc]

end FilterLists.Text
