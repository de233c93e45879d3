import FilterLists.Proofs.Saving.Step

/-! Saves that overlap. No two of them have the same temporary file, so each fills its own, and a
cached file is at every moment as it was or has the whole content of one save. -/
namespace FilterLists

/-- The name is that of a temporary file whose number has been taken since the start. -/
def Store.IsGiven (start s : Store) (name : String) : Prop :=
  ∃ id process k, name = tempName id process k ∧
    (k - start.saves).toNat < (s.saves - start.saves).toNat

theorem Store.IsGiven.mono {start s t : Store} {name : String} (h : start.IsGiven s name)
    (hle : (s.saves - start.saves).toNat ≤ (t.saves - start.saves).toNat) :
    start.IsGiven t name := by
  obtain ⟨id, process, k, hname, hk⟩ := h
  exact ⟨id, process, k, hname, hk.trans_le hle⟩

theorem Store.not_isGiven_next (start s : Store) (id : FilterId) :
    ¬ start.IsGiven s (tempName id s.process s.saves) := by
  rintro ⟨other, process, k, hname, hk⟩
  obtain rfl : s.saves = k := saves_of_tempName hname
  exact Nat.lt_irrefl _ hk

theorem toNat_next {a b : UInt64} (h : (a - b).toNat + 1 < 2 ^ 64) :
    (a + 1 - b).toNat = (a - b).toNat + 1 := by
  have ha := a.toNat_lt
  have hb := b.toNat_lt
  rw [UInt64.toNat_sub] at h
  rw [UInt64.toNat_sub, UInt64.toNat_sub, UInt64.toNat_add, UInt64.toNat_one]
  omega

namespace Saving

def move (state : Store × List Saving) (m : SaveMove) : Store × List Saving :=
  match state.2[m.place]? with
  | some v =>
    let next := v.step m.faults m.now m.more state.1
    (next.1, state.2.set m.place next.2)
  | none => state

theorem move_cases (state : Store × List Saving) (m : SaveMove) :
    (∃ v next, state.2[m.place]? = some v ∧ IsStep m.faults m.now state.1 v next ∧
      move state m = (next.1, state.2.set m.place next.2)) ∨
    (state.2[m.place]? = none ∧ move state m = state) := by
  unfold move
  cases hv : state.2[m.place]? with
  | none => exact .inr ⟨rfl, rfl⟩
  | some v => exact .inl ⟨v, _, rfl, isStep_step v m.faults m.now m.more state.1, rfl⟩

theorem getElem?_set_cases {α : Type} {l : List α} {i j : Nat} {a b : α}
    (h : (l.set i a)[j]? = some b) : (j = i ∧ b = a) ∨ (j ≠ i ∧ l[j]? = some b) := by
  rw [List.getElem?_set] at h
  split_ifs at h with hij hlt
  · exact .inl ⟨hij.symm, (Option.some.inj h).symm⟩
  · exact .inr ⟨fun heq => hij heq.symm, h⟩

/-- Between two moves: enough numbers are left for the saves that have none, and each save has what
it relies on and a temporary file of its own. -/
structure Sound (start : Store) (state : Store × List Saving) : Prop where
  room : (state.1.saves - start.saves).toNat + state.2.countP isUnnumbered < 2 ^ 64
  holds (i : Nat) (v : Saving) : state.2[i]? = some v → v.Holds state.1
  given (i : Nat) (v : Saving) (temp : String) : state.2[i]? = some v → v.temp? = some temp →
    start.IsGiven state.1 temp
  apart (i j : Nat) (v w : Saving) (temp : String) : state.2[i]? = some v → state.2[j]? = some w →
    v.temp? = some temp → w.temp? = some temp → i = j

variable {start : Store} {state : Store × List Saving} {saves : List Saving}

section Move
variable {faults : Faults} {now : Instant} {place : Nat} {v : Saving} {next : Store × Saving}
  (h : Sound start state) (hv : state.2[place]? = some v)
  (hstep : IsStep faults now state.1 v next)
include h hv hstep

/-- A step takes a number only for a save that has none, so numbers do not run out. -/
theorem Sound.room_step :
    (state.1.saves - start.saves).toNat ≤ (next.1.saves - start.saves).toNat ∧
      (next.1.saves - start.saves).toNat + (state.2.set place next.2).countP isUnnumbered <
        2 ^ 64 := by
  obtain ⟨hplace, hget⟩ := List.getElem?_eq_some_iff.mp hv
  have hroom := h.room
  rw [List.countP_set hplace, hget]
  rcases hstep.numbering_cases with ⟨hphase, hsaves, hnext⟩ | ⟨hsaves, -, hback⟩
  · have hbefore : v.isUnnumbered = true := by rw [isUnnumbered, hphase]
    have hafter : next.2.isUnnumbered = false := by rw [hnext]; rfl
    have hcount : 0 < state.2.countP isUnnumbered :=
      List.countP_pos_iff.mpr ⟨v, List.mem_of_getElem? hv, hbefore⟩
    rw [hsaves, toNat_next (by omega), hbefore, hafter]
    simp only [if_true, Bool.false_eq_true, if_false]
    omega
  · rw [hsaves]
    cases hafter : next.2.isUnnumbered with
    | false =>
      simp only [Bool.false_eq_true, if_false]
      omega
    | true =>
      have hcount : 0 < state.2.countP isUnnumbered :=
        List.countP_pos_iff.mpr ⟨v, List.mem_of_getElem? hv, hback hafter⟩
      rw [hback hafter]
      simp only [if_true]
      omega

/-- The file of another save is not reached. -/
theorem Sound.entry_step {j : Nat} {w : Saving} (hw : state.2[j]? = some w) (hne : j ≠ place)
    {temp : String} (htemp : w.temp? = some temp) :
    next.1.entry temp = state.1.entry temp := by
  have hname := (h.holds j w hw).named temp htemp
  refine hstep.entry_eq hname.size_le (hname.fileName_ne _).symm fun hown => hne ?_
  exact h.apart j place w v temp hw hv htemp hown

/-- The temporary file after a step was there before, or its number is the next one. -/
theorem Sound.temp_step {temp : String} (htemp : next.2.temp? = some temp) :
    start.IsGiven next.1 temp ∧
      (v.temp? = some temp ∨
        ∀ (j : Nat) (w : Saving), state.2[j]? = some w → w.temp? ≠ some temp) := by
  obtain ⟨hle, hroom⟩ := h.room_step hv hstep
  rcases hstep.numbering_cases with ⟨hphase, hsaves, hnext⟩ | ⟨-, hkept | hnone, -⟩
  · rw [hnext] at htemp
    obtain rfl : Store.tempName v.filter.id state.1.process state.1.saves = temp :=
      Option.some.inj htemp
    refine ⟨⟨_, _, _, rfl, ?_⟩, .inr fun j w hw hother => ?_⟩
    · have hbefore : v.isUnnumbered = true := by rw [isUnnumbered, hphase]
      have hcount : 0 < state.2.countP isUnnumbered :=
        List.countP_pos_iff.mpr ⟨v, List.mem_of_getElem? hv, hbefore⟩
      have hbound := h.room
      rw [hsaves, toNat_next (by omega)]
      omega
    · exact start.not_isGiven_next state.1 v.filter.id (h.given j w _ hw hother)
  · rw [hkept] at htemp
    exact ⟨(h.given place v temp hv htemp).mono hle, .inl htemp⟩
  · rw [hnone] at htemp
    cases htemp

theorem Sound.step : Sound start (next.1, state.2.set place next.2) := by
  obtain ⟨hle, hroom⟩ := h.room_step hv hstep
  -- The files of two saves are told apart where one of them is the save that moves.
  have hmoved : ∀ (j : Nat) (w : Saving) (temp : String), j ≠ place → state.2[j]? = some w →
      next.2.temp? = some temp → w.temp? ≠ some temp := by
    intro j w temp hne hw htemp hother
    rcases (h.temp_step hv hstep htemp).2 with hold | hnew
    · exact hne (h.apart j place w v temp hw hv hother hold)
    · exact hnew j w hw hother
  constructor
  case room => exact hroom
  case holds =>
    intro j w hw
    rcases getElem?_set_cases hw with ⟨rfl, rfl⟩ | ⟨hne, hold⟩
    · exact hstep.holds (h.holds j v hv)
    · exact (h.holds j w hold).mono hstep.isOpen fun temp htemp =>
        h.entry_step hv hstep hold hne htemp
  case given =>
    intro j w temp hw htemp
    rcases getElem?_set_cases hw with ⟨rfl, rfl⟩ | ⟨-, hold⟩
    · exact (h.temp_step hv hstep htemp).1
    · exact (h.given j w temp hold htemp).mono hle
  case apart =>
    intro i j w u temp hw hu hwtemp hutemp
    rcases getElem?_set_cases hw with ⟨rfl, rfl⟩ | ⟨hi, hwold⟩
    · rcases getElem?_set_cases hu with ⟨rfl, -⟩ | ⟨hj, huold⟩
      · rfl
      · exact absurd hutemp (hmoved j u temp hj huold hwtemp)
    · rcases getElem?_set_cases hu with ⟨rfl, rfl⟩ | ⟨-, huold⟩
      · exact absurd hwtemp (hmoved i w temp hi hwold hutemp)
      · exact h.apart i j w u temp hwold huold hwtemp hutemp

end Move

theorem Sound.move (h : Sound start state) (m : SaveMove) : Sound start (move state m) := by
  rcases move_cases state m with ⟨v, next, hv, hstep, heq⟩ | ⟨-, heq⟩ <;> rw [heq]
  · exact h.step hv hstep
  · exact h

theorem Sound.moves (h : Sound start state) (moves : List SaveMove) :
    Sound start (moves.foldl Saving.move state) := by
  induction moves generalizing state with
  | nil => exact h
  | cons m rest ih => exact ih (h.move m)

/-- The file has been used by a save and is not there any more, and no save has its name. -/
structure IsGone (start : Store) (state : Store × List Saving) (temp : String) : Prop where
  given : start.IsGiven state.1 temp
  missing : state.1.entry temp = .error .notFound
  unused (j : Nat) (w : Saving) : state.2[j]? = some w → w.temp? ≠ some temp

end Saving

end FilterLists
