import FilterLists.Text.Digits
import FilterLists.Toml.Value

/-!
Values without quotes and brackets: booleans, integers, floats, dates and times. Each is read from a
whole word.
-/
namespace FilterLists.Toml.Scalar

open Text (digit? valueOf)

/-- The digits of a number in which single underscores may stand between two digits. -/
def ungrouped? (radix : Nat) : List Char → Option (List Nat)
  | [] => none
  | [c] => (digit? radix c).map ([·])
  | c :: '_' :: rest => do some ((← digit? radix c) :: (← ungrouped? radix rest))
  | c :: rest => do some ((← digit? radix c) :: (← ungrouped? radix rest))

def decimal? (word : List Char) : Option (List Nat) :=
  (ungrouped? 10 word).bind fun digits =>
    match digits with
    | 0 :: _ :: _ => none
    | _ => some digits

def signed : List Char → Bool × List Char
  | '-' :: rest => (true, rest)
  | '+' :: rest => (false, rest)
  | word => (false, word)

def integer? (word : List Char) : Option Int :=
  match word with
  | '0' :: 'x' :: rest => (ungrouped? 16 rest).map fun ds => Int.ofNat (valueOf 16 ds)
  | '0' :: 'o' :: rest => (ungrouped? 8 rest).map fun ds => Int.ofNat (valueOf 8 ds)
  | '0' :: 'b' :: rest => (ungrouped? 2 rest).map fun ds => Int.ofNat (valueOf 2 ds)
  | _ =>
    let (negative, digits) := signed word
    (decimal? digits).map fun ds =>
      if negative then -Int.ofNat (valueOf 10 ds) else Int.ofNat (valueOf 10 ds)

/-- Whether digits scaled by a power of ten stay below the least number that rounds to infinity,
`2 ^ 1024 - 2 ^ 970`. -/
def inRange (digits : List Nat) (exponent : Int) : Bool :=
  let n := valueOf 10 digits
  let size := Int.ofNat (digits.dropWhile (· = 0)).length + exponent
  if n = 0 ∨ size < 309 then true
  else if 309 < size then false
  else
    let bound := Nat.pow 2 1024 - Nat.pow 2 970
    if 0 ≤ exponent then n * Nat.pow 10 exponent.toNat < bound
    else n < bound * Nat.pow 10 (-exponent).toNat

def exponent? : List Char → Option Int
  | [] => some 0
  | mark :: rest =>
    if mark = 'e' ∨ mark = 'E' then
      let (negative, digits) := signed rest
      (ungrouped? 10 digits).map fun ds =>
        if negative then -Int.ofNat (valueOf 10 ds) else Int.ofNat (valueOf 10 ds)
    else none

def isExponentMark (c : Char) : Bool :=
  c = 'e' || c = 'E'

/-- A float has a fraction or an exponent, or is infinite or not a number. The result tells whether
it is in range. -/
def float? (word : List Char) : Option Bool :=
  let (_, word) := signed word
  if word = "inf".toList ∨ word = "nan".toList then some true
  else
    let mantissa := word.takeWhile (fun c => !isExponentMark c)
    let scale := word.dropWhile (fun c => !isExponentMark c)
    let whole := mantissa.takeWhile (· ≠ '.')
    match mantissa.dropWhile (· ≠ '.') with
    | [] =>
      if scale.isEmpty then none
      else do
        let digits ← decimal? whole
        let e ← exponent? scale
        some (inRange digits e)
    | _ :: fraction => do
      let digits ← decimal? whole
      let decimals ← ungrouped? 10 fraction
      let e ← exponent? scale
      some (inRange (digits ++ decimals) (e - Int.ofNat decimals.length))

def pair? (bound : Nat) : List Char → Option (Nat × List Char)
  | a :: b :: rest =>
    if a.isDigit ∧ b.isDigit then
      let n := (a.toNat - '0'.toNat) * 10 + (b.toNat - '0'.toNat)
      if n < bound then some (n, rest) else none
    else none
  | _ => none

def expect? (c : Char) : List Char → Option (List Char)
  | d :: rest => if c = d then some rest else none
  | [] => none

def daysIn (year month : Nat) : Nat :=
  if month = 2 then
    if year % 4 = 0 ∧ (year % 100 ≠ 0 ∨ year % 400 = 0) then 29 else 28
  else if month = 4 ∨ month = 6 ∨ month = 9 ∨ month = 11 then 30
  else 31

/-- A day of the calendar, and the rest of the word. -/
def date? (word : List Char) : Option (List Char) := do
  let (century, rest) ← pair? 100 word
  let (yearOfCentury, rest) ← pair? 100 rest
  let rest ← expect? '-' rest
  let (month, rest) ← pair? 13 rest
  let rest ← expect? '-' rest
  let (day, rest) ← pair? 32 rest
  if 1 ≤ month ∧ 1 ≤ day ∧ day ≤ daysIn (century * 100 + yearOfCentury) month then some rest
  else none

/-- A time of day, in which seconds may be left out, and the rest of the word. -/
def time? (word : List Char) : Option (List Char) := do
  let (_, rest) ← pair? 24 word
  let rest ← expect? ':' rest
  let (_, rest) ← pair? 60 rest
  match rest with
  | ':' :: rest =>
    let (_, rest) ← pair? 61 rest
    match rest with
    | '.' :: rest =>
      if (rest.takeWhile Char.isDigit).isEmpty then none else some (rest.dropWhile Char.isDigit)
    | _ => some rest
  | _ => some rest

/-- Nothing, `Z`, or a difference in hours and minutes. -/
def isOffset : List Char → Bool
  | [] => true
  | [c] => c = 'Z' || c = 'z'
  | sign :: rest =>
    (sign = '+' || sign = '-') &&
      match do
        let (_, rest) ← pair? 24 rest
        let rest ← expect? ':' rest
        pair? 60 rest with
      | some (_, []) => true
      | _ => false

def isMoment (word : List Char) : Bool :=
  match date? word with
  | some [] => true
  | some (mark :: rest) =>
    (mark = 'T' || mark = 't' || mark = ' ') &&
      match time? rest with
      | some offset => isOffset offset
      | none => false
  | none =>
    match time? word with
    | some [] => true
    | _ => false

def ofWord? (word : List Char) : Option Value :=
  if word = "true".toList then some (.boolean true)
  else if word = "false".toList then some (.boolean false)
  else
    match integer? word with
    | some n => some (.integer n)
    | none =>
      match float? word with
      | some inRange => some (.float inRange)
      | none => if isMoment word then some .moment else none

def isWordChar (c : Char) : Bool :=
  c.isAlphanum || c = '_' || c = '-' || c = '+' || c = '.' || c = ':'

/-- Reads a word. A date and a time may have a space between them. -/
def read? (text : List Char) : Option (Value × List Char) :=
  let word := text.takeWhile isWordChar
  let rest := text.dropWhile isWordChar
  let joined :=
    match date? word, rest with
    | some [], ' ' :: more =>
      let time := more.takeWhile isWordChar
      match time with
      | c :: _ => if c.isDigit then some (word ++ ' ' :: time, more.dropWhile isWordChar) else none
      | [] => none
    | _, _ => none
  match joined with
  | some (whole, rest) => (ofWord? whole).map (·, rest)
  | none => (ofWord? word).map (·, rest)

end FilterLists.Toml.Scalar
