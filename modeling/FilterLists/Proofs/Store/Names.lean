import Mathlib
import FilterLists.Store

/-! The names of cached and temporary files. Different filters have different cached files, saves
with different numbers have different temporary files, no temporary file has the name of a cached
one, and no name is too long for a directory. -/
namespace FilterLists.Store

theorem fileName_injective : Function.Injective fileName := by
  intro a b h
  have hr : a.toInt.repr = b.toInt.repr := (String.append_left_inj ".txt").mp h
  exact Int64.toInt_inj.mp (Int.repr_injective hr)

private theorem head?_repr_ne_dot (n : Int) : n.repr.toList.head? ≠ some '.' := by
  cases n with
  | ofNat m =>
    intro h
    have hm : '.' ∈ Nat.toDigits 10 m := by
      have hd : (Nat.toDigits 10 m).head? = some '.' := by
        simpa [Int.repr, Nat.repr_eq_ofList_toDigits] using h
      exact List.mem_of_head? hd
    have hdigit := Nat.isDigit_of_mem_toDigits (by decide) (by decide) hm
    exact absurd hdigit (by decide)
  | negSucc m => simp [Int.repr]

theorem fileName_ne_tempName (id other : FilterId) (process : UInt32) (saves : UInt64) :
    fileName id ≠ tempName other process saves := by
  intro h
  have hl := congrArg (fun s : String => s.toList.head?) h
  have hne : id.toInt.repr.toList ≠ [] := by
    rw [Int.repr_eq_if]
    split <;> simp [Nat.repr_eq_ofList_toDigits, Nat.toDigits_ne_nil]
  have hdot : id.toInt.repr.toList.head? = some '.' := by
    simpa [fileName, tempName, List.head?_append_of_ne_nil _ hne, Int.toString_eq_repr] using hl
  exact head?_repr_ne_dot _ hdot

private theorem utf8Len_le (chars : List Char) : String.utf8Len chars ≤ 4 * chars.length := by
  induction chars with
  | nil => simp
  | cons c rest ih =>
    have hc := c.utf8Size_le_four
    simp only [String.utf8Len_cons, List.length_cons]
    omega

private theorem utf8ByteSize_natRepr_le (n e : Nat) (he : 0 < e) (h : n < 10 ^ e) :
    n.repr.utf8ByteSize ≤ 4 * e := by
  have hl : (Nat.toDigits 10 n).length ≤ e := Nat.toDigits_length 10 n e he h
  have hu := utf8Len_le (Nat.toDigits 10 n)
  rw [Nat.repr_eq_ofList_toDigits, String.utf8ByteSize_ofList]
  omega

private theorem utf8ByteSize_idRepr_le (id : FilterId) : id.toInt.repr.utf8ByteSize ≤ 81 := by
  have hlo := Int64.le_toInt id
  have hhi := Int64.toInt_lt id
  rw [Int.repr_eq_if]
  split
  · have := utf8ByteSize_natRepr_le id.toInt.toNat 20 (by decide) (by omega)
    omega
  · have := utf8ByteSize_natRepr_le (-id.toInt).toNat 20 (by decide) (by omega)
    have hm : "-".utf8ByteSize = 1 := by decide
    rw [String.utf8ByteSize_append, hm]
    omega

theorem utf8ByteSize_fileName_le (id : FilterId) :
    (fileName id).utf8ByteSize ≤ Path.maxNameBytes := by
  have hid := utf8ByteSize_idRepr_le id
  have ht : ".txt".utf8ByteSize = 4 := by decide
  simp only [fileName, Int.toString_eq_repr, String.utf8ByteSize_append, ht, Path.maxNameBytes]
  omega

/-- The numbers of a process and of its saves have a width, so their digits do too. -/
theorem utf8ByteSize_tempName_le (id : FilterId) (process : UInt32) (saves : UInt64) :
    (tempName id process saves).utf8ByteSize ≤ Path.maxNameBytes := by
  have hid := utf8ByteSize_idRepr_le id
  have hp : (toString process).utf8ByteSize ≤ 4 * 10 :=
    utf8ByteSize_natRepr_le process.toNat 10 (by decide) (by have := process.toNat_lt; omega)
  have hs : (toString saves).utf8ByteSize ≤ 4 * 20 :=
    utf8ByteSize_natRepr_le saves.toNat 20 (by decide) (by have := saves.toNat_lt; omega)
  have h1 : ".".utf8ByteSize = 1 := by decide
  have h2 : ".txt.".utf8ByteSize = 5 := by decide
  have h3 : ".tmp".utf8ByteSize = 4 := by decide
  simp only [tempName, Int.toString_eq_repr, String.utf8ByteSize_append, h1, h2, h3,
    Path.maxNameBytes]
  omega

private theorem eq_of_append_dot {a b d e : List Char} (hd : '.' ∉ d) (he : '.' ∉ e)
    (h : a ++ '.' :: d = b ++ '.' :: e) : d = e := by
  have hend : ∀ {front last : List Char}, '.' ∉ last →
      (front ++ '.' :: last).reverse.takeWhile (· ≠ '.') = last.reverse := by
    intro front last hlast
    have hall : ∀ c ∈ last.reverse, decide (c ≠ '.') = true := by
      intro c hc
      refine decide_eq_true ?_
      rintro rfl
      exact hlast (List.mem_reverse.mp hc)
    rw [List.reverse_append, List.reverse_cons, List.append_assoc,
      List.takeWhile_append_of_pos hall]
    simp
  have hreverse : d.reverse = e.reverse := by rw [← hend hd, ← hend he, h]
  exact List.reverse_injective hreverse

/-- The name of a temporary file tells the number of its save. -/
theorem saves_of_tempName {id other : FilterId} {process elsewhere : UInt32} {n m : UInt64}
    (h : tempName id process n = tempName other elsewhere m) : n = m := by
  have hdigits : ∀ k : UInt64, '.' ∉ (toString k).toList := by
    intro k hdot
    have hmem : '.' ∈ Nat.toDigits 10 k.toNat := by
      have hk : (toString k).toList = Nat.toDigits 10 k.toNat := by
        show k.toNat.repr.toList = _
        rw [Nat.repr_eq_ofList_toDigits, String.toList_ofList]
      rwa [hk] at hdot
    exact absurd (Nat.isDigit_of_mem_toDigits (by decide) (by decide) hmem) (by decide)
  have hparts : ∀ (id : FilterId) (process : UInt32) (k : UInt64),
      (tempName id process k).toList =
        (("." ++ toString id.toInt ++ ".txt." ++ toString process).toList ++
          '.' :: (toString k).toList) ++ ".tmp".toList := by
    intro id process k
    simp [tempName]
  have hlists := congrArg String.toList h
  rw [hparts, hparts] at hlists
  have hnumbers := eq_of_append_dot (hdigits n) (hdigits m) (List.append_cancel_right hlists)
  have hnat : n.toNat.repr = m.toNat.repr := String.toList_inj.mp hnumbers
  exact UInt64.toNat_inj.mp (Nat.repr_injective hnat)

end FilterLists.Store
