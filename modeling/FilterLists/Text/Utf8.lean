/-!
UTF-8, read one byte at a time. Every byte sequence has a lossy reading, in which each maximal
part of a malformed sequence counts as one U+FFFD. The strict reading exists for well-formed
sequences only.
-/
namespace FilterLists

abbrev Bytes := List UInt8

namespace Utf8

/-- A character that has begun: how many bytes it needs after the next one, the range in which the
next one must lie, and the bits read so far. -/
structure Pending where
  owed : Nat
  low : UInt8
  high : UInt8
  bits : Nat
deriving DecidableEq, Repr

/-- The effect of a byte that starts a character. A malformed part is reported as `none`. -/
def lead (b : UInt8) : List (Option Char) × Option Pending :=
  if b ≤ 0x7F then ([some (Char.ofNat b.toNat)], none)
  else if b < 0xC2 then ([none], none)
  else if b ≤ 0xDF then ([], some ⟨0, 0x80, 0xBF, b.toNat - 0xC0⟩)
  else if b = 0xE0 then ([], some ⟨1, 0xA0, 0xBF, 0⟩)
  else if b = 0xED then ([], some ⟨1, 0x80, 0x9F, 13⟩)
  else if b ≤ 0xEF then ([], some ⟨1, 0x80, 0xBF, b.toNat - 0xE0⟩)
  else if b = 0xF0 then ([], some ⟨2, 0x90, 0xBF, 0⟩)
  else if b ≤ 0xF3 then ([], some ⟨2, 0x80, 0xBF, b.toNat - 0xF0⟩)
  else if b = 0xF4 then ([], some ⟨2, 0x80, 0x8F, 4⟩)
  else ([none], none)

/-- A byte that cannot continue the pending character ends it as malformed and starts another. -/
def feed : Option Pending → UInt8 → List (Option Char) × Option Pending
  | none, b => lead b
  | some p, b =>
    if p.low ≤ b ∧ b ≤ p.high then
      let bits := p.bits * 64 + b.toNat % 64
      match p.owed with
      | 0 => ([some (Char.ofNat bits)], none)
      | n + 1 => ([], some ⟨n, 0x80, 0xBF, bits⟩)
    else
      let r := lead b
      (none :: r.1, r.2)

def scan : Option Pending → Bytes → List (Option Char)
  | none, [] => []
  | some _, [] => [none]
  | s, b :: rest =>
    let r := feed s b
    r.1 ++ scan r.2 rest

def replacement : Char := Char.ofNat 0xFFFD

def decodeLossy (bytes : Bytes) : List Char :=
  (scan none bytes).map (·.getD replacement)

def decode? (bytes : Bytes) : Option (List Char) :=
  (scan none bytes).mapM id

def encode (text : List Char) : Bytes :=
  text.flatMap String.utf8EncodeChar

end Utf8

def bytesOf (text : String) : Bytes :=
  Utf8.encode text.toList

end FilterLists
