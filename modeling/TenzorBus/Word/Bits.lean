import Mathlib.Data.Finset.Basic
import Mathlib.Data.Fintype.Basic
import Mathlib.Data.Finset.Card

/-!
# The positions of the bits of a word

A word as a set of small numbers: the operations on words become the operations on sets.
-/

namespace TenzorBus.Bits

variable {w : Nat}

/-- The positions of the bits that are set. -/
def positions (m : BitVec w) : Finset (Fin w) := Finset.univ.filter fun i => m.getLsbD i = true

@[simp] theorem mem_positions {m : BitVec w} {i : Fin w} :
    i ∈ positions m ↔ m.getLsbD i = true := by
  simp [positions]

@[simp] theorem positions_zero : positions (0 : BitVec w) = ∅ := by
  ext i; simp

theorem positions_eq_empty {m : BitVec w} : positions m = ∅ ↔ m = 0 := by
  constructor
  · intro h
    apply BitVec.eq_of_getLsbD_eq
    intro i hi
    have : (⟨i, hi⟩ : Fin w) ∉ positions m := by rw [h]; simp
    simpa using this
  · rintro rfl; exact positions_zero

/-- Counting the bits. -/
theorem card_positions (m : BitVec w) :
    (positions m).card = (List.finRange w).countP fun i : Fin w => m.getLsbD i := by
  rw [List.countP_eq_length_filter, positions, Finset.card, Finset.filter_val, Fin.univ_def]
  simp only [Multiset.filter_coe, Multiset.coe_card, Bool.decide_eq_true]

/-- Clearing a bit. -/
theorem positions_and_not_twoPow (m : BitVec w) (i : Fin w) :
    positions (m &&& ~~~ BitVec.twoPow w i) = (positions m).erase i := by
  ext j
  simp only [mem_positions, BitVec.getLsbD_and, BitVec.getLsbD_not, BitVec.getLsbD_twoPow,
    Finset.mem_erase, Bool.and_eq_true, Bool.not_eq_true', j.isLt,
    decide_true, Bool.true_and, i.isLt, decide_eq_false_iff_not]
  constructor
  · rintro ⟨hm, hne⟩
    exact ⟨fun h => hne (by rw [h]), hm⟩
  · rintro ⟨hne, hm⟩
    exact ⟨hm, fun h => hne (Fin.ext h.symm)⟩

/-- Setting a bit. -/
theorem positions_or_twoPow (m : BitVec w) (i : Fin w) :
    positions (m ||| BitVec.twoPow w i) = insert i (positions m) := by
  ext j
  simp only [mem_positions, BitVec.getLsbD_or, BitVec.getLsbD_twoPow, Finset.mem_insert,
    Bool.or_eq_true, Bool.and_eq_true, decide_eq_true_eq, i.isLt, true_and]
  constructor
  · rintro (hm | h)
    · exact Or.inr hm
    · exact Or.inl (Fin.ext h.symm)
  · rintro (h | hm)
    · exact Or.inr (by rw [h])
    · exact Or.inl hm

/-- Testing a bit. -/
theorem and_twoPow_eq_zero {m : BitVec w} {i : Fin w} :
    m &&& BitVec.twoPow w i = 0 ↔ i ∉ positions m := by
  rw [mem_positions, BitVec.and_twoPow]
  split
  · next h =>
    refine ⟨fun h0 => ?_, fun hn => absurd h hn⟩
    have := congrArg (BitVec.getLsbD · i) h0
    simp at this
  · next h => exact ⟨fun _ => h, fun _ => rfl⟩

end TenzorBus.Bits
