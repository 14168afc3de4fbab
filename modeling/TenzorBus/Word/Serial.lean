import Mathlib.Data.Int.ModEq
import Mathlib.Order.Basic

/-!
# Serial numbers

A counter of `w` bits that wraps, and the comparison that reads the difference of two values as a
signed number. The values come from an unbounded counter; inside a window of half the range the
comparison agrees with the order of the unbounded values, outside it does not.

* `newer_ofInt_iff` : the comparison inside the window, its far end included
* `ofInt_inj_of_window` : values closer than the whole range are told apart
-/

namespace TenzorBus.Serial

variable {w : Nat}

/-- `a` is newer than `b`: their difference, read as a signed number, is positive. -/
def newer (a b : BitVec w) : Bool := 0 < (a - b).toInt

theorem not_newer_self (a : BitVec w) : newer a a = false := by
  simp [newer]

theorem toInt_ofInt_sub (a b : Int) :
    (BitVec.ofInt w a - BitVec.ofInt w b).toInt = (a - b).bmod (2 ^ w) := by
  simp [BitVec.toInt_sub, BitVec.toInt_ofInt]

/-- In the window the comparison is the order of the unbounded counter. -/
theorem newer_ofInt_iff {a b : Int} (hlo : 2 * (b - a) ≤ 2 ^ w) (hhi : 2 * (a - b) < 2 ^ w) :
    newer (BitVec.ofInt w a) (BitVec.ofInt w b) = true ↔ b < a := by
  have hpow : ((2 ^ w : Nat) : Int) = 2 ^ w := by push_cast; rfl
  unfold newer
  rw [decide_eq_true_iff, toInt_ofInt_sub,
    Int.bmod_eq_of_le_mul_two (by rw [hpow]; omega) (by rw [hpow]; omega)]
  omega

/-- Two values of the unbounded counter that are closer than the range wrap to different words. -/
theorem ofInt_inj_of_window {a b : Int} (h : BitVec.ofInt w a = BitVec.ofInt w b)
    (hab : a - b < 2 ^ w) (hba : b - a < 2 ^ w) : a = b := by
  have hb : (a - b).bmod (2 ^ w) = 0 := by
    rw [← toInt_ofInt_sub, h, BitVec.sub_self, BitVec.toInt_zero]
  have hd : ((2 ^ w : Nat) : Int) ∣ a - b := by
    rw [Int.bmod_eq_self_sub_mul_bdiv] at hb
    exact ⟨(a - b).bdiv (2 ^ w), by omega⟩
  have hpow : ((2 ^ w : Nat) : Int) = 2 ^ w := by push_cast; rfl
  rw [hpow] at hd
  have hz : a - b = 0 := by
    refine Int.eq_zero_of_abs_lt_dvd hd ?_
    rw [abs_lt]
    omega
  omega

end TenzorBus.Serial
