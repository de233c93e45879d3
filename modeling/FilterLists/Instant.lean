import FilterLists.Text.Digits

/-!
Points in time, counted in nanoseconds from the start of 1970, and their text in the calendar of
ISO 8601.
-/
namespace FilterLists

structure Instant where
  nanos : Int
deriving DecidableEq, Repr, Inhabited

structure Span where
  nanos : Int
deriving DecidableEq, Repr, Inhabited

namespace Span

def ofHours (n : Int) : Span := ⟨n * 3600 * 1000000000⟩

end Span

namespace Instant

/-- Whole seconds since the epoch, rounded down. -/
def seconds (t : Instant) : Int := t.nanos / 1000000000

def addMillis (t : Instant) (n : Nat) : Instant := ⟨t.nanos + n * 1000000⟩

def since (t u : Instant) : Span := ⟨t.nanos - u.nanos⟩

structure Date where
  year : Int
  month : Nat
  day : Nat
deriving DecidableEq, Repr

/-- Years run from March, so that a leap day is the last day of its year; 400 years have 146097
days. -/
def Date.ofDays (days : Int) : Date :=
  let shifted := days + 719468
  let dayOfEra := (shifted % 146097).toNat
  let yearOfEra :=
    (dayOfEra - dayOfEra / 1460 + dayOfEra / 36524 - dayOfEra / 146096) / 365
  let dayOfYear := dayOfEra - (365 * yearOfEra + yearOfEra / 4 - yearOfEra / 100)
  let monthFromMarch := (5 * dayOfYear + 2) / 153
  let month := if monthFromMarch < 10 then monthFromMarch + 3 else monthFromMarch - 9
  { year := yearOfEra + shifted / 146097 * 400 + (if month ≤ 2 then 1 else 0)
    month
    day := dayOfYear - (153 * monthFromMarch + 2) / 5 + 1 }

def padded (width n : Nat) : String :=
  String.ofList (Text.padded 10 width n)

def Date.yearText (year : Int) : String :=
  if 0 ≤ year ∧ year ≤ 9999 then padded 4 year.toNat
  else (if year < 0 then "-" else "+") ++ padded 4 year.natAbs

/-- The shortest exact fraction of 0, 3, 6 or 9 digits. -/
def fractionText (nanos : Nat) : String :=
  if nanos = 0 then ""
  else if nanos % 1000000 = 0 then "." ++ padded 3 (nanos / 1000000)
  else if nanos % 1000 = 0 then "." ++ padded 6 (nanos / 1000)
  else "." ++ padded 9 nanos

def text (t : Instant) : String :=
  let secs := t.seconds
  let date := Date.ofDays (secs / 86400)
  let clock := (secs % 86400).toNat
  Date.yearText date.year ++ "-" ++ padded 2 date.month ++ "-" ++ padded 2 date.day ++ "T" ++
    padded 2 (clock / 3600) ++ ":" ++ padded 2 (clock / 60 % 60) ++ ":" ++ padded 2 (clock % 60) ++
    fractionText (t.nanos % 1000000000).toNat ++ "Z"

end Instant

end FilterLists
