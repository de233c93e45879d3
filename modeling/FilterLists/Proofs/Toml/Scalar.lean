import Mathlib
import FilterLists.Toml.Scalar

/-! Booleans and decimal numbers are read back from their words. -/
namespace FilterLists.Toml.Scalar

open Text (digit? valueOf)

/-- What may follow a value on a line: neither a character of a word nor a blank. -/
def EndsWord (rest : List Char) : Prop :=
  ∀ c ∈ rest.head?, isWordChar c = false ∧ c ≠ ' '

theorem endsWord_of_head {c : Char} (h : isWordChar c = false) (hspace : c ≠ ' ')
    (rest : List Char) : EndsWord (c :: rest) := by
  intro d hd
  obtain rfl : c = d := by simpa using hd
  exact ⟨h, hspace⟩

theorem read?_word {word rest : List Char} (hword : ∀ c ∈ word, isWordChar c = true)
    (hrest : EndsWord rest) : read? (word ++ rest) = (ofWord? word).map (·, rest) := by
  have hstop : rest.takeWhile isWordChar = [] ∧ rest.dropWhile isWordChar = rest := by
    cases rest with
    | nil => simp
    | cons c rest => simp [hrest c (by simp)]
  have htake : (word ++ rest).takeWhile isWordChar = word := by
    rw [List.takeWhile_append_of_pos hword, hstop.1, List.append_nil]
  have hdrop : (word ++ rest).dropWhile isWordChar = rest := by
    rw [List.dropWhile_append_of_pos hword, hstop.2]
  unfold read?
  simp only [htake, hdrop]
  split
  · next heq =>
    split at heq
    · exact absurd rfl (hrest ' ' (by simp)).2
    · cases heq
  · rfl

section Decimal

def digitValue (c : Char) : Nat :=
  c.toNat - '0'.toNat

theorem digit?_of_isDigit {c : Char} (h : c.isDigit = true) : digit? 10 c = some (digitValue c) := by
  have hrange : '0' ≤ c ∧ c ≤ '9' := by
    simpa [Char.isDigit, Char.le_def] using h
  have hvalue : c.toNat - '0'.toNat < 10 := by
    have : c.toNat ≤ '9'.toNat := hrange.2
    have : '9'.toNat = 57 := rfl
    have : '0'.toNat = 48 := rfl
    omega
  simp only [digit?, if_pos hrange, Option.filter_some, digitValue]
  rw [if_pos (decide_eq_true hvalue)]

theorem ungrouped?_of_isDigit {word : List Char} (hdigits : ∀ c ∈ word, c.isDigit = true)
    (hne : word ≠ []) : ungrouped? 10 word = some (word.map digitValue) := by
  match word, hne with
  | [c], _ => simp [ungrouped?, digit?_of_isDigit (hdigits c (by simp))]
  | c :: d :: rest, _ =>
    have hd : d ≠ '_' := by
      rintro rfl
      exact absurd (hdigits '_' (by simp)) (by decide)
    have ih : ungrouped? 10 (d :: rest) = _ := ungrouped?_of_isDigit
      (fun e he => hdigits e (List.mem_cons_of_mem c he)) (by simp)
    rw [ungrouped?]
    · rw [digit?_of_isDigit (hdigits c (by simp)), ih]
      rfl
    · simp
    · intro more heq
      exact hd (List.cons.inj heq).1

theorem valueOf_eq_ofDigitChars (word : List Char) :
    valueOf 10 (word.map digitValue) = Nat.ofDigitChars 10 word 0 := by
  simp [valueOf, Nat.ofDigitChars_eq_foldl, List.foldl_map, digitValue, Nat.mul_comm]

/-- A number above zero has no leading zero. -/
theorem head?_toDigits {n : Nat} (hn : 0 < n) : (Nat.toDigits 10 n).head? ≠ some '0' := by
  induction n using Nat.strongRecOn with
  | ind n ih =>
    rw [Nat.toDigits_eq_if (by decide)]
    split
    · next hlt =>
      interval_cases n <;> decide
    · next hle =>
      have hne : Nat.toDigits 10 (n / 10) ≠ [] := Nat.toDigits_ne_nil
      rw [List.head?_append_of_ne_nil _ hne]
      exact ih (n / 10) (by omega) (by omega)

theorem decimal?_toDigits (n : Nat) :
    decimal? (Nat.toDigits 10 n) = some ((Nat.toDigits 10 n).map digitValue) := by
  have hdigit : ∀ c ∈ Nat.toDigits 10 n, c.isDigit = true := fun c hc =>
    Nat.isDigit_of_mem_toDigits (by decide) (by decide) hc
  rw [decimal?, ungrouped?_of_isDigit hdigit Nat.toDigits_ne_nil, Option.bind_some]
  split
  · next first second more heq =>
    exfalso
    cases hword : Nat.toDigits 10 n with
    | nil => exact absurd hword Nat.toDigits_ne_nil
    | cons c tail =>
      rw [hword] at heq hdigit
      have hzero : digitValue c = 0 := (List.cons.inj heq).1
      have hc : c = '0' := by
        have hle : '0'.toNat ≤ c.toNat := by
          have := hdigit c (by simp)
          simp only [Char.isDigit, Bool.and_eq_true, decide_eq_true_eq] at this
          exact this.1
        exact Char.toNat_inj.mp (by unfold digitValue at hzero; omega)
      obtain rfl | hn := Nat.eq_zero_or_pos n
      · obtain ⟨-, rfl⟩ : '0' = c ∧ tail = [] := by simpa using hword
        simp at heq
      · exact head?_toDigits hn (by rw [hword, hc]; rfl)
  · rfl

end Decimal

section Words

/-- A word of digits is not a number of another radix and has no sign. -/
theorem integer?_of_isDigit {word : List Char} (hdigits : ∀ c ∈ word, c.isDigit = true) :
    integer? word = (decimal? word).map fun ds => Int.ofNat (valueOf 10 ds) := by
  have hsign : signed word = (false, word) := by
    unfold signed
    split
    · exact absurd (hdigits '-' (by simp)) (by decide)
    · exact absurd (hdigits '+' (by simp)) (by decide)
    · rfl
  unfold integer?
  split
  · exact absurd (hdigits 'x' (by simp)) (by decide)
  · exact absurd (hdigits 'o' (by simp)) (by decide)
  · exact absurd (hdigits 'b' (by simp)) (by decide)
  · rw [hsign]
    rfl

theorem integer?_minus (word : List Char) :
    integer? ('-' :: word) = (decimal? word).map fun ds => -Int.ofNat (valueOf 10 ds) := rfl

theorem isDigit_of_mem_toDigits {n : Nat} : ∀ c ∈ Nat.toDigits 10 n, c.isDigit = true :=
  fun _ hc => Nat.isDigit_of_mem_toDigits (by decide) (by decide) hc

theorem map_valueOf_toDigits (n : Nat) (f : Nat → Int) :
    (decimal? (Nat.toDigits 10 n)).map (fun ds => f (valueOf 10 ds)) = some (f n) := by
  rw [decimal?_toDigits, Option.map_some, valueOf_eq_ofDigitChars, Nat.ofDigitChars_ten_toDigits]

theorem integer?_toDigits (n : Nat) : integer? (Nat.toDigits 10 n) = some (Int.ofNat n) := by
  rw [integer?_of_isDigit isDigit_of_mem_toDigits]
  exact map_valueOf_toDigits n Int.ofNat

/-- An integer is written in digits, after a minus sign if it is negative. -/
theorem toList_toString (n : Int) :
    (∃ m : Nat, n = m ∧ (toString n).toList = Nat.toDigits 10 m) ∨
      (∃ m : Nat, n = -m ∧ (toString n).toList = '-' :: Nat.toDigits 10 m) := by
  match n with
  | .ofNat n => exact .inl ⟨n, rfl, Nat.toList_repr⟩
  | .negSucc n =>
    refine .inr ⟨n + 1, rfl, ?_⟩
    show ("-" ++ (n + 1).repr).toList = _
    rw [String.toList_append, Nat.toList_repr]
    rfl

theorem integer?_toString (n : Int) : integer? (toString n).toList = some n := by
  rcases toList_toString n with ⟨m, rfl, hword⟩ | ⟨m, rfl, hword⟩ <;> rw [hword]
  · exact integer?_toDigits m
  · rw [integer?_minus]
    exact map_valueOf_toDigits m (fun k => -Int.ofNat k)

theorem forall_mem_toString (n : Int) : ∀ c ∈ (toString n).toList, c.isDigit = true ∨ c = '-' := by
  intro c hc
  rcases toList_toString n with ⟨m, -, hword⟩ | ⟨m, -, hword⟩ <;> rw [hword] at hc
  · exact .inl (isDigit_of_mem_toDigits c hc)
  · rcases List.mem_cons.mp hc with rfl | hc
    · exact .inr rfl
    · exact .inl (isDigit_of_mem_toDigits c hc)

end Words

section RoundTrip
variable {rest : List Char}

theorem read?_boolean (h : EndsWord rest) (b : Bool) :
    read? ((if b then "true" else "false").toList ++ rest) = some (.boolean b, rest) := by
  have hword : ∀ c ∈ (if b then "true" else "false").toList, isWordChar c = true := by
    cases b <;> simp [isWordChar]
  have hvalue : ofWord? (if b then "true" else "false").toList = some (.boolean b) := by
    cases b <;> rfl
  rw [read?_word hword h, hvalue]
  rfl

theorem read?_integerWord (h : EndsWord rest) {word : List Char} {n : Int}
    (hchars : ∀ c ∈ word, c.isDigit = true ∨ c = '-') (hread : integer? word = some n) :
    read? (word ++ rest) = some (.integer n, rest) := by
  have hword : ∀ c ∈ word, isWordChar c = true := by
    intro c hc
    rcases hchars c hc with hdigit | rfl
    · simp [isWordChar, Char.isAlphanum, hdigit]
    · decide
  have htrue : word ≠ "true".toList := by
    rintro rfl
    exact absurd (hchars 't' (by simp)) (by decide)
  have hfalse : word ≠ "false".toList := by
    rintro rfl
    exact absurd (hchars 'f' (by simp)) (by decide)
  rw [read?_word hword h, ofWord?, if_neg htrue, if_neg hfalse, hread]
  rfl

theorem read?_natural (h : EndsWord rest) (n : Nat) :
    read? (Nat.toDigits 10 n ++ rest) = some (.integer n, rest) :=
  read?_integerWord h (fun c hc => .inl (isDigit_of_mem_toDigits c hc)) (integer?_toDigits n)

theorem read?_integer (h : EndsWord rest) (n : Int) :
    read? ((toString n).toList ++ rest) = some (.integer n, rest) :=
  read?_integerWord h (forall_mem_toString n) (integer?_toString n)

end RoundTrip

end FilterLists.Toml.Scalar
