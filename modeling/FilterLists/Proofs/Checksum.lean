import Mathlib
import FilterLists.Checksum

/-! The register of the checksum is shifted by a bijection that is linear in exclusive or. A word of
at most four bytes enters the register as a number: it is combined with the register, which is then
shifted through all bits of the word. So two contents that differ in one word only have different
checksums. -/
namespace FilterLists

namespace Checksum
variable {r : UInt32} {n : ℕ}

theorem toNat_half (r : UInt32) : (r >>> 1).toNat = r.toNat / 2 := by
  rw [UInt32.toNat_shiftRight, UInt32.toNat_one, Nat.shiftRight_eq_div_pow]

theorem shift_eq (r : UInt32) :
    shift r = if r.toNat % 2 = 1 then (r >>> 1) ^^^ polynomial else r >>> 1 := by
  have hodd : r &&& 1 = 1 ↔ r.toNat % 2 = 1 := by
    rw [← UInt32.toNat_inj, UInt32.toNat_and, UInt32.toNat_one, Nat.and_one_is_mod]
  simp only [shift, hodd]

theorem shift_xor (a b : UInt32) : shift (a ^^^ b) = shift a ^^^ shift b := by
  have hparity : (a ^^^ b).toNat % 2 = (a.toNat + b.toNat) % 2 := by
    rw [UInt32.toNat_xor, Nat.xor_mod_two_eq]
  simp only [shift_eq, UInt32.shiftRight_xor]
  by_cases ha : a.toNat % 2 = 1 <;> by_cases hb : b.toNat % 2 = 1
  · -- Both subtract the polynomial, and in the sum the two cancel.
    rw [if_neg (by omega), if_pos ha, if_pos hb, UInt32.xor_comm (b >>> 1), UInt32.xor_assoc,
      ← UInt32.xor_assoc polynomial, UInt32.xor_self, UInt32.zero_xor]
  · rw [if_pos (by omega), if_pos ha, if_neg hb]
    ac_rfl
  · rw [if_pos (by omega), if_neg ha, if_pos hb]
    ac_rfl
  · rw [if_neg (by omega), if_neg ha, if_neg hb]

/-- The polynomial has the highest bit, which no register keeps in a shift. -/
theorem eq_zero_of_shift (h : shift r = 0) : r = 0 := by
  have hr := r.toNat_lt
  rw [shift_eq] at h
  rw [← UInt32.toNat_inj, UInt32.toNat_zero]
  split at h
  · have hhalf : (r >>> 1).toNat = polynomial.toNat := by rw [UInt32.xor_eq_zero_iff.mp h]
    have hpolynomial : polynomial.toNat = 0xEDB88320 := rfl
    rw [toNat_half] at hhalf
    omega
  · have hhalf : (r >>> 1).toNat = 0 := by rw [h, UInt32.toNat_zero]
    rw [toNat_half] at hhalf
    omega

theorem shift_injective : Function.Injective shift := by
  intro a b h
  have hdifference : shift (a ^^^ b) = 0 := by rw [shift_xor, h, UInt32.xor_self]
  exact UInt32.xor_eq_zero_iff.mp (eq_zero_of_shift hdifference)

theorem shift_ofNat (h : 2 * n < 2 ^ 32) : shift (UInt32.ofNat (2 * n)) = UInt32.ofNat n := by
  have hdouble : (UInt32.ofNat (2 * n)).toNat = 2 * n := UInt32.toNat_ofNat_of_lt' h
  have hsingle : (UInt32.ofNat n).toNat = n := UInt32.toNat_ofNat_of_lt' (show n < 2 ^ 32 by omega)
  rw [shift_eq, hdouble, if_neg (by omega), ← UInt32.toNat_inj, toNat_half, hdouble, hsingle]
  omega

theorem iterate_shift_xor (k : ℕ) (a b : UInt32) :
    shift^[k] (a ^^^ b) = shift^[k] a ^^^ shift^[k] b := by
  induction k generalizing a b with
  | zero => rfl
  | succ k ih => simp only [Function.iterate_succ_apply, shift_xor, ih]

/-- A number above the lowest bits is moved down through them. -/
theorem iterate_shift_ofNat (k : ℕ) (h : 2 ^ k * n < 2 ^ 32) :
    shift^[k] (UInt32.ofNat (2 ^ k * n)) = UInt32.ofNat n := by
  induction k with
  | zero => simp
  | succ k ih =>
    rw [pow_succ', Nat.mul_assoc] at h ⊢
    rw [Function.iterate_succ_apply, shift_ofNat h]
    exact ih (by omega)

theorem feed_eq (r : UInt32) (b : UInt8) : feed r b = shift^[8] (r ^^^ b.toUInt32) :=
  rfl

theorem feed_injective (b : UInt8) : Function.Injective (feed · b) := by
  intro r s h
  simp only [feed_eq] at h
  exact (UInt32.xor_left_inj _).mp (shift_injective.iterate 8 h)

theorem foldl_feed_injective (bytes : Bytes) : Function.Injective (bytes.foldl feed) := by
  induction bytes with
  | nil => exact fun _ _ h => h
  | cons b rest ih => exact fun r s h => feed_injective b (ih h)

/-- The number that bytes stand for, the lowest one first. -/
def word (bytes : Bytes) : ℕ :=
  Nat.ofDigits 256 (bytes.map UInt8.toNat)

section Word
variable {v w : Bytes}

theorem lt_of_mem_map_toNat {d : ℕ} (h : d ∈ w.map UInt8.toNat) : d < 256 := by
  obtain ⟨b, -, rfl⟩ := List.mem_map.mp h
  exact b.toNat_lt

theorem word_lt (w : Bytes) : word w < 256 ^ w.length := by
  have hlt := Nat.ofDigits_lt_base_pow_length (by decide : 1 < 256)
    (fun d hd => lt_of_mem_map_toNat (w := w) hd)
  rwa [List.length_map] at hlt

theorem word_injective (hlength : v.length = w.length) (h : word v = word w) : v = w := by
  refine List.map_injective_iff.mpr (fun _ _ => UInt8.toNat_inj.mp) ?_
  exact Nat.ofDigits_inj_of_len_eq (by decide : 1 < 256) (by simpa using hlength)
    (fun _ => lt_of_mem_map_toNat) (fun _ => lt_of_mem_map_toNat) h

theorem xor_two_pow_mul {k d : ℕ} (h : d < 2 ^ k) (n : ℕ) : d ^^^ 2 ^ k * n = d + 2 ^ k * n := by
  refine Nat.eq_of_testBit_eq (fun i => ?_)
  rw [Nat.add_comm, Nat.testBit_two_pow_mul_add n h, Nat.testBit_xor, Nat.testBit_two_pow_mul]
  by_cases hi : i < k
  · simp [hi, Nat.not_le.mpr hi]
  · have hhigh : d.testBit i = false :=
      Nat.testBit_lt_two_pow (h.trans_le (Nat.pow_le_pow_right (by decide) (Nat.not_lt.mp hi)))
    simp [hi, hhigh, Nat.not_lt.mp hi]

theorem ofNat_word_cons (b : UInt8) (rest : Bytes) :
    UInt32.ofNat (word (b :: rest)) = b.toUInt32 ^^^ UInt32.ofNat (2 ^ 8 * word rest) := by
  rw [← UInt32.ofNat_uInt8ToNat, ← UInt32.ofNat_xor, xor_two_pow_mul b.toNat_lt]
  rfl

/-- Up to four bytes are the same to the register as their number all at once. -/
theorem foldl_feed_eq (r : UInt32) (h : w.length ≤ 4) :
    w.foldl feed r = shift^[8 * w.length] (r ^^^ UInt32.ofNat (word w)) := by
  induction w generalizing r with
  | nil => simp [word]
  | cons b rest ih =>
    have hlength : rest.length ≤ 3 := Nat.le_of_succ_le_succ h
    have hrest : word rest < 256 ^ 3 :=
      (word_lt rest).trans_le (Nat.pow_le_pow_right (by decide) hlength)
    calc
      rest.foldl feed (feed r b) =
          shift^[8 * rest.length] (shift^[8] (r ^^^ b.toUInt32) ^^^ UInt32.ofNat (word rest)) := by
        rw [ih _ (by omega), feed_eq]
      _ = shift^[8 * rest.length] (shift^[8]
            (r ^^^ b.toUInt32 ^^^ UInt32.ofNat (2 ^ 8 * word rest))) := by
        rw [iterate_shift_xor 8 (r ^^^ b.toUInt32), iterate_shift_ofNat 8 (by omega)]
      _ = shift^[8 * (b :: rest).length] (r ^^^ UInt32.ofNat (word (b :: rest))) := by
        rw [← Function.iterate_add_apply, ofNat_word_cons, UInt32.xor_assoc, List.length_cons,
          Nat.mul_succ]

theorem foldl_feed_ne (r : UInt32) (hlength : v.length = w.length) (hfour : w.length ≤ 4)
    (hne : v ≠ w) : v.foldl feed r ≠ w.foldl feed r := by
  have hroom : ∀ u : Bytes, u.length ≤ 4 → word u < 2 ^ 32 := fun u hu =>
    (word_lt u).trans_le (Nat.pow_le_pow_right (by decide) hu : 256 ^ u.length ≤ 256 ^ 4)
  rw [foldl_feed_eq r (hlength.le.trans hfour), foldl_feed_eq r hfour, hlength]
  intro h
  have hwords := (UInt32.xor_right_inj r).mp (shift_injective.iterate _ h)
  refine hne (word_injective hlength ?_)
  rwa [← UInt32.toNat_inj, UInt32.toNat_ofNat_of_lt' (hroom v (hlength.le.trans hfour)),
    UInt32.toNat_ofNat_of_lt' (hroom w hfour)] at hwords

end Word

end Checksum

/-- The second content is the first one after a short burst of errors: they have the same length and
differ, and all differences lie within four bytes. -/
structure IsBurst (a b : Bytes) : Prop where
  length : a.length = b.length
  differs : a ≠ b
  window : ∃ start, ∀ i, a[i]? ≠ b[i]? → start ≤ i ∧ i < start + 4

variable {a b : Bytes}

theorem IsBurst.exists_words (h : IsBurst a b) :
    ∃ before v w after, a = before ++ (v ++ after) ∧ b = before ++ (w ++ after) ∧
      v.length = w.length ∧ w.length ≤ 4 ∧ v ≠ w := by
  obtain ⟨hlength, hdiffers, start, hwindow⟩ := h
  have hbefore : a.take start = b.take start := by
    refine List.ext_getElem? (fun i => ?_)
    rw [List.getElem?_take, List.getElem?_take]
    split
    · by_contra hne
      have := hwindow i hne
      omega
    · rfl
  have hafter : (a.drop start).drop 4 = (b.drop start).drop 4 := by
    refine List.ext_getElem? (fun i => ?_)
    rw [List.drop_drop, List.drop_drop, List.getElem?_drop, List.getElem?_drop]
    by_contra hne
    have := hwindow _ hne
    omega
  have hsplit : ∀ c : Bytes,
      c = c.take start ++ ((c.drop start).take 4 ++ (c.drop start).drop 4) := fun c => by
    rw [List.take_append_drop, List.take_append_drop]
  refine ⟨b.take start, (a.drop start).take 4, (b.drop start).take 4, (b.drop start).drop 4,
    ?_, hsplit b, ?_, List.length_take_le _ _, fun hsame => hdiffers ?_⟩
  · rw [← hbefore, ← hafter]
    exact hsplit a
  · simp only [List.length_take, List.length_drop, hlength]
  · rw [hsplit a, hsplit b, hbefore, hafter, hsame]

/-- Other words of up to four bytes in the same place are a burst. -/
theorem isBurst_of_words {before v w after : Bytes} (hlength : v.length = w.length)
    (hfour : w.length ≤ 4) (hne : v ≠ w) :
    IsBurst (before ++ (v ++ after)) (before ++ (w ++ after)) := by
  refine ⟨by simp [hlength], fun h => hne ?_, before.length, fun i hi => ?_⟩
  · exact List.append_cancel_right (List.append_cancel_left h)
  · by_contra houtside
    rcases Nat.lt_or_ge i before.length with hi' | hi'
    · exact hi (by rw [List.getElem?_append_left hi', List.getElem?_append_left hi'])
    · have hv : v.length ≤ i - before.length := by omega
      rw [List.getElem?_append_right hi', List.getElem?_append_right hi',
        List.getElem?_append_right hv, List.getElem?_append_right (hlength ▸ hv), hlength] at hi
      exact hi rfl

/-- No short burst keeps the checksum. -/
theorem checksum_ne_of_isBurst (h : IsBurst a b) : checksum a ≠ checksum b := by
  obtain ⟨before, v, w, after, rfl, rfl, hlength, hfour, hne⟩ := h.exists_words
  intro hsame
  have hregisters := (UInt32.xor_left_inj _).mp hsame
  rw [List.foldl_append, List.foldl_append, List.foldl_append, List.foldl_append] at hregisters
  exact Checksum.foldl_feed_ne _ hlength hfour hne (Checksum.foldl_feed_injective after hregisters)

end FilterLists
