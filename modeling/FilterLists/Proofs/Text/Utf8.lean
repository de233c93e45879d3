import Mathlib
import FilterLists.Text.Utf8

/-! What is written in UTF-8 is read back. A character of two bytes or more is followed through the
states that it puts the reader in: after its first byte, while bytes are owed, and after the last.
-/
namespace FilterLists.Utf8

theorem toNat_byte {n : ℕ} (h : n < 256) : (UInt8.ofNat n).toNat = n :=
  UInt8.toNat_ofNat_of_lt' h

section Feed
variable {n bits owed : ℕ} {low high : UInt8}

theorem mem_range_byte (hlow : low.toNat ≤ n) (hhigh : n ≤ high.toNat) :
    (UInt8.ofNat n).toNat = n ∧ low ≤ UInt8.ofNat n ∧ UInt8.ofNat n ≤ high := by
  have hn : (UInt8.ofNat n).toNat = n := toNat_byte (Nat.lt_of_le_of_lt hhigh high.toNat_lt)
  rw [UInt8.le_iff_toNat_le, UInt8.le_iff_toNat_le, hn]
  exact ⟨rfl, hlow, hhigh⟩

theorem feed_last (hlow : low.toNat ≤ n) (hhigh : n ≤ high.toNat) :
    feed (some ⟨0, low, high, bits⟩) (UInt8.ofNat n) =
      ([some (Char.ofNat (bits * 64 + n % 64))], none) := by
  obtain ⟨hn, hrange⟩ := mem_range_byte hlow hhigh
  simp only [feed, hrange, and_self, if_true, hn]

theorem feed_owed (hlow : low.toNat ≤ n) (hhigh : n ≤ high.toNat) :
    feed (some ⟨owed + 1, low, high, bits⟩) (UInt8.ofNat n) =
      ([], some ⟨owed, 0x80, 0xBF, bits * 64 + n % 64⟩) := by
  obtain ⟨hn, hrange⟩ := mem_range_byte hlow hhigh
  simp only [feed, hrange, and_self, if_true, hn]

end Feed

section Lead
variable {v : ℕ}

theorem lead_one (h : v ≤ 0x7F) : lead (UInt8.ofNat v) = ([some (Char.ofNat v)], none) := by
  simp only [lead, UInt8.le_iff_toNat_le, toNat_byte (show v < 256 by omega), UInt8.reduceToNat]
  rw [if_pos h]

theorem lead_two (hlow : 0x7F < v) (hhigh : v ≤ 0x7FF) :
    lead (UInt8.ofNat (v / 64 % 32 + 192)) = ([], some ⟨0, 0x80, 0xBF, v / 64⟩) := by
  have hbyte : v / 64 % 32 + 192 = v / 64 + 192 := by omega
  simp only [lead, UInt8.le_iff_toNat_le, UInt8.lt_iff_toNat_lt, hbyte,
    toNat_byte (show v / 64 + 192 < 256 by omega), UInt8.reduceToNat, Nat.add_sub_cancel]
  rw [if_neg (by omega), if_neg (by omega), if_pos (by omega)]

/-- Surrogates are no characters, and that is where the second byte has a range of its own. -/
theorem lead_three (hlow : 0x7FF < v) (hhigh : v ≤ 0xFFFF) (hvalid : v < 0xD800 ∨ 0xDFFF < v) :
    ∃ low high : UInt8, lead (UInt8.ofNat (v / 4096 % 16 + 224)) =
        ([], some ⟨1, low, high, v / 4096⟩) ∧
      low.toNat ≤ v / 64 % 64 + 128 ∧ v / 64 % 64 + 128 ≤ high.toNat := by
  have hbyte : v / 4096 % 16 + 224 = v / 4096 + 224 := by omega
  simp only [lead, UInt8.le_iff_toNat_le, UInt8.lt_iff_toNat_lt, ← UInt8.toNat_inj, hbyte,
    toNat_byte (show v / 4096 + 224 < 256 by omega), UInt8.reduceToNat, Nat.add_sub_cancel]
  rw [if_neg (by omega), if_neg (by omega), if_neg (by omega)]
  by_cases hfirst : v / 4096 = 0
  · rw [if_pos (by omega)]
    exact ⟨0xA0, 0xBF, by rw [hfirst], by simp only [UInt8.reduceToNat]; omega,
      by simp only [UInt8.reduceToNat]; omega⟩
  · rw [if_neg (by omega)]
    by_cases hbefore : v / 4096 = 13
    · rw [if_pos (by omega)]
      exact ⟨0x80, 0x9F, by rw [hbefore], by simp only [UInt8.reduceToNat]; omega,
        by simp only [UInt8.reduceToNat]; omega⟩
    · rw [if_neg (by omega), if_pos (by omega)]
      exact ⟨0x80, 0xBF, rfl, by simp only [UInt8.reduceToNat]; omega,
        by simp only [UInt8.reduceToNat]; omega⟩

theorem lead_four (hlow : 0xFFFF < v) (hhigh : v < 0x110000) :
    ∃ low high : UInt8, lead (UInt8.ofNat (v / 262144 % 8 + 240)) =
        ([], some ⟨2, low, high, v / 262144⟩) ∧
      low.toNat ≤ v / 4096 % 64 + 128 ∧ v / 4096 % 64 + 128 ≤ high.toNat := by
  have hbyte : v / 262144 % 8 + 240 = v / 262144 + 240 := by omega
  simp only [lead, UInt8.le_iff_toNat_le, UInt8.lt_iff_toNat_lt, ← UInt8.toNat_inj, hbyte,
    toNat_byte (show v / 262144 + 240 < 256 by omega), UInt8.reduceToNat, Nat.add_sub_cancel]
  rw [if_neg (by omega), if_neg (by omega), if_neg (by omega), if_neg (by omega),
    if_neg (by omega), if_neg (by omega)]
  by_cases hfirst : v / 262144 = 0
  · rw [if_pos (by omega)]
    exact ⟨0x90, 0xBF, by rw [hfirst], by simp only [UInt8.reduceToNat]; omega,
      by simp only [UInt8.reduceToNat]; omega⟩
  · rw [if_neg (by omega)]
    by_cases hlast : v / 262144 = 4
    · rw [if_neg (by omega), if_pos (by omega)]
      exact ⟨0x80, 0x8F, by rw [hlast], by simp only [UInt8.reduceToNat]; omega,
        by simp only [UInt8.reduceToNat]; omega⟩
    · rw [if_pos (by omega)]
      exact ⟨0x80, 0xBF, rfl, by simp only [UInt8.reduceToNat]; omega,
        by simp only [UInt8.reduceToNat]; omega⟩

end Lead

theorem scan_encodeChar (c : Char) (rest : Bytes) :
    scan none (String.utf8EncodeChar c ++ rest) = some c :: scan none rest := by
  have hvalid : c.val.toNat < 0xD800 ∨ (0xDFFF < c.val.toNat ∧ c.val.toNat < 0x110000) := c.valid
  have hchar : Char.ofNat c.val.toNat = c := Char.ofNat_toNat c
  have hstart : ∀ b, feed none b = lead b := fun _ => rfl
  -- The last byte completes the number of the character.
  have hend : ∀ bits last, bits * 64 + (last + 128) % 64 = c.val.toNat → last < 64 →
      feed (some ⟨0, 0x80, 0xBF, bits⟩) (UInt8.ofNat (last + 128)) = ([some c], none) := by
    intro bits last hbits hlast
    rw [feed_last (by simp only [UInt8.reduceToNat]; omega) (by simp only [UInt8.reduceToNat]; omega),
      hbits, hchar]
  have hmiddle : ∀ owed bits next, next < 64 →
      feed (some ⟨owed + 1, 0x80, 0xBF, bits⟩) (UInt8.ofNat (next + 128)) =
        ([], some ⟨owed, 0x80, 0xBF, bits * 64 + (next + 128) % 64⟩) := by
    intro owed bits next hnext
    exact feed_owed (by simp only [UInt8.reduceToNat]; omega)
      (by simp only [UInt8.reduceToNat]; omega)
  unfold String.utf8EncodeChar
  generalize c.val.toNat = v at *
  simp only
  split_ifs with hone htwo hthree
  · simp only [scan, List.cons_append, List.nil_append, hstart, lead_one hone, hchar]
  · simp only [scan, List.cons_append, List.nil_append, hstart, lead_two (Nat.not_le.mp hone) htwo,
      hend (v / 64) (v % 64) (by omega) (by omega)]
  · obtain ⟨low, high, hlead, hlow, hhigh⟩ := lead_three (Nat.not_le.mp htwo) hthree (by omega)
    simp only [scan, List.cons_append, List.nil_append, hstart, hlead, feed_owed hlow hhigh,
      hend _ (v % 64) (show (v / 4096 * 64 + (v / 64 % 64 + 128) % 64) * 64 +
        (v % 64 + 128) % 64 = v by omega) (by omega)]
  · obtain ⟨low, high, hlead, hlow, hhigh⟩ := lead_four (Nat.not_le.mp hthree) (by omega)
    simp only [scan, List.cons_append, List.nil_append, hstart, hlead, feed_owed hlow hhigh,
      hmiddle 0 _ (v / 64 % 64) (by omega),
      hend _ (v % 64) (show ((v / 262144 * 64 + (v / 4096 % 64 + 128) % 64) * 64 +
        (v / 64 % 64 + 128) % 64) * 64 + (v % 64 + 128) % 64 = v by omega) (by omega)]

theorem scan_encode (text : List Char) : scan none (encode text) = text.map some := by
  induction text with
  | nil => rfl
  | cons c rest ih =>
    rw [encode, List.flatMap_cons, scan_encodeChar, List.map_cons]
    rw [encode] at ih
    rw [ih]

theorem decodeLossy_encode (text : List Char) : decodeLossy (encode text) = text := by
  rw [decodeLossy, scan_encode, List.map_map]
  exact List.map_id text

theorem decode?_encode (text : List Char) : decode? (encode text) = some text := by
  rw [decode?, scan_encode]
  induction text with
  | nil => rfl
  | cons c rest ih => simp [ih]

end FilterLists.Utf8
