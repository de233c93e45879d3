/-!
The values of a TOML document. Tables remember how they came about, because that decides what may
still be added to them. Of a float or a date nothing is kept but that it is one, and whether a float
is in the range of 64 bits.
-/
namespace FilterLists.Toml

inductive TableKind
  /-- Named by a header of its own. -/
  | header
  /-- Passed through by the header of another table. -/
  | implied
  /-- Passed through by a dotted key. -/
  | dotted
  /-- Written in braces. -/
  | inlined
deriving DecidableEq, Repr

inductive Value
  | text (s : String)
  | integer (n : Int)
  | float (inRange : Bool)
  | boolean (b : Bool)
  | moment
  | array (items : List Value)
  | table (kind : TableKind) (entries : List (String × Value))
  /-- Tables under a repeated header in double brackets. -/
  | tables (items : List (List (String × Value)))

abbrev Members := List (String × Value)

namespace Value

mutual

/-- Whether a reader that ignores the value can still pass over it: its numbers have a range. -/
def passable : Value → Bool
  | .text _ => true
  | .integer n => -(Int.pow 2 127) ≤ n && n < Int.pow 2 128
  | .float inRange => inRange
  | .boolean _ => true
  | .moment => true
  | .array items => passableItems items
  | .table _ entries => passableEntries entries
  | .tables items => passableTables items

def passableItems : List Value → Bool
  | [] => true
  | v :: rest => passable v && passableItems rest

def passableEntries : List (String × Value) → Bool
  | [] => true
  | (_, v) :: rest => passable v && passableEntries rest

def passableTables : List (List (String × Value)) → Bool
  | [] => true
  | entries :: rest => passableEntries entries && passableTables rest

end

end Value

end FilterLists.Toml
