/-!
Digits of a radix up to sixteen, and numbers written with them.
-/
namespace FilterLists.Text

/-- The value of a digit. Letters may be of either case. -/
def digit? (radix : Nat) (c : Char) : Option Nat :=
  let value :=
    if '0' ≤ c ∧ c ≤ '9' then some (c.toNat - '0'.toNat)
    else if 'a' ≤ c ∧ c ≤ 'f' then some (c.toNat - 'a'.toNat + 10)
    else if 'A' ≤ c ∧ c ≤ 'F' then some (c.toNat - 'A'.toNat + 10)
    else none
  value.filter (· < radix)

def valueOf (radix : Nat) (digits : List Nat) : Nat :=
  digits.foldl (fun n d => n * radix + d) 0

def padded (radix width n : Nat) : List Char :=
  let digits := Nat.toDigits radix n
  List.replicate (width - digits.length) '0' ++ digits

end FilterLists.Text
