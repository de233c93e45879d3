import Mathlib
import FilterLists.Text.Blank
import FilterLists.Text.Utf8

/-! An ASCII byte stands for itself wherever it comes: no character that has begun swallows it, and
it ends a malformed part. So a text can be read piece by piece between its line feeds. -/
namespace FilterLists

namespace Utf8
variable {b : UInt8} {state : Option Pending}

/-- Where a character has begun, no ASCII byte continues it. -/
def RefusesAscii (state : Option Pending) : Prop :=
  ∀ p ∈ state, 0x80 ≤ p.low

theorem refusesAscii_none : RefusesAscii none := by
  simp [RefusesAscii]

theorem lead_ascii (h : b ≤ 0x7F) : lead b = ([some (Char.ofNat b.toNat)], none) := by
  rw [lead, if_pos h]

theorem refusesAscii_lead (b : UInt8) : RefusesAscii (lead b).2 := by
  unfold lead RefusesAscii
  split_ifs <;> simp

theorem refusesAscii_feed (h : RefusesAscii state) (b : UInt8) : RefusesAscii (feed state b).2 := by
  cases state with
  | none => exact refusesAscii_lead b
  | some p =>
    by_cases hrange : p.low ≤ b ∧ b ≤ p.high
    · cases howed : p.owed <;> simp [feed, hrange, howed, RefusesAscii]
    · simpa [feed, hrange] using refusesAscii_lead b

/-- Whatever was owed before an ASCII byte is lost as one malformed part, just as at the end. -/
theorem scan_append_ascii (hstate : RefusesAscii state) (hb : b ≤ 0x7F) (before after : Bytes) :
    scan state (before ++ b :: after) =
      scan state before ++ some (Char.ofNat b.toNat) :: scan none after := by
  induction before generalizing state with
  | nil =>
    cases state with
    | none => simp [scan, feed, lead_ascii hb]
    | some p =>
      have hrefused : ¬ (p.low ≤ b ∧ b ≤ p.high) := by
        rintro ⟨hlow, -⟩
        have hstart : 0x80 ≤ p.low := hstate p rfl
        rw [UInt8.le_iff_toNat_le] at hlow hstart hb
        simp only [UInt8.reduceToNat] at hstart hb
        omega
      simp [scan, feed, hrefused, lead_ascii hb]
  | cons c rest ih =>
    simp only [List.cons_append, scan, ih (refusesAscii_feed hstate c), List.append_assoc]

theorem decodeLossy_append_ascii (hb : b ≤ 0x7F) (before after : Bytes) :
    decodeLossy (before ++ b :: after) =
      decodeLossy before ++ Char.ofNat b.toNat :: decodeLossy after := by
  simp [decodeLossy, scan_append_ascii refusesAscii_none hb]

theorem decodeLossy_cons_ascii (hb : b ≤ 0x7F) (after : Bytes) :
    decodeLossy (b :: after) = Char.ofNat b.toNat :: decodeLossy after :=
  decodeLossy_append_ascii hb [] after

theorem decodeLossy_concat_ascii (hb : b ≤ 0x7F) (before : Bytes) :
    decodeLossy (before ++ [b]) = decodeLossy before ++ [Char.ofNat b.toNat] :=
  decodeLossy_append_ascii hb before []

end Utf8

namespace Text

theorem splitAt_ne_nil (sep : Char) (text : List Char) : splitAt sep text ≠ [] := by
  cases text with
  | nil => simp [splitAt]
  | cons c rest =>
    unfold splitAt
    split
    · simp
    · split <;> simp

theorem splitAt_append (sep : Char) (before after : List Char) :
    splitAt sep (before ++ sep :: after) = splitAt sep before ++ splitAt sep after := by
  induction before with
  | nil => simp [splitAt]
  | cons c rest ih =>
    rw [List.cons_append, splitAt, splitAt, ih]
    by_cases hc : c = sep
    · simp [hc]
    · rw [if_neg hc, if_neg hc]
      cases hparts : splitAt sep rest with
      | nil => exact absurd hparts (splitAt_ne_nil sep rest)
      | cons part parts => rfl

theorem splitAt_of_notMem {sep : Char} {text : List Char} (h : sep ∉ text) :
    splitAt sep text = [text] := by
  induction text with
  | nil => rfl
  | cons c rest ih =>
    rw [List.mem_cons, not_or] at h
    rw [splitAt, if_neg (Ne.symm h.1), ih h.2]

section Ends
variable {c sep : Char}

theorem exists_splitAt_cons (hc : c ≠ sep) (text : List Char) :
    ∃ first others, splitAt sep text = first :: others ∧
      splitAt sep (c :: text) = (c :: first) :: others := by
  cases hparts : splitAt sep text with
  | nil => exact absurd hparts (splitAt_ne_nil sep text)
  | cons first others => exact ⟨first, others, rfl, by rw [splitAt, if_neg hc, hparts]⟩

theorem exists_splitAt_concat (hc : c ≠ sep) (text : List Char) :
    ∃ others last, splitAt sep text = others ++ [last] ∧
      splitAt sep (text ++ [c]) = others ++ [last ++ [c]] := by
  induction text with
  | nil => exact ⟨[], [], rfl, by simp [splitAt, hc]⟩
  | cons d rest ih =>
    obtain ⟨others, last, hplain, hlonger⟩ := ih
    rw [List.cons_append, splitAt, splitAt, hplain, hlonger]
    by_cases hd : d = sep
    · exact ⟨[] :: others, last, by simp [hd], by simp [hd]⟩
    · cases others with
      | nil => exact ⟨[], d :: last, by simp [hd], by simp [hd]⟩
      | cons first between => exact ⟨(d :: first) :: between, last, by simp [hd], by simp [hd]⟩

end Ends

end Text

end FilterLists
