import Mathlib.Data.List.FinRange
import Mathlib.Logic.Function.Basic

/-!
# Functions that are updated again and again

Arrays as functions: what a loop over the indices makes of them, and what a copy does.
-/

namespace TenzorBus

/-- Updates at the indices of a list. -/
theorem foldl_update {ι α : Type} [DecidableEq ι] (g : ι → α) (l : List ι) (f : ι → α) (d : ι) :
    l.foldl (fun h d => Function.update h d (g d)) f d = if d ∈ l then g d else f d := by
  induction l generalizing f with
  | nil => simp
  | cons x xs ih =>
    rw [List.foldl_cons, ih]
    by_cases hd : d = x
    · subst hd
      simp
    · simp [hd]

/-- Updates at all indices make a function the given one. -/
theorem foldl_update_finRange {α : Type} {k : Nat} (f g : Fin k → α) :
    (List.finRange k).foldl (fun h d => Function.update h d (g d)) f = g := by
  funext d
  rw [foldl_update, if_pos (List.mem_finRange d)]

/-- The array `p` after the writes of a list, one after the other. -/
def written {α : Type} (p : Nat → α) (writes : List (Nat × α)) : Nat → α :=
  writes.foldl (fun p x => Function.update p x.1 x.2) p

/-- The writes of a copy of `data` to the front of an array. -/
def copyOf {α : Type} (data : List α) : List (Nat × α) := data.zipIdx.map fun x => (x.2, x.1)

theorem written_zipIdx {α : Type} (data : List α) (k : Nat) (p : Nat → α) (off : Nat) :
    (data.zipIdx k).foldl (fun p x => Function.update p x.2 x.1) p off =
      if k ≤ off then (data[off - k]?).getD (p off) else p off := by
  induction data generalizing k p with
  | nil => simp
  | cons b data ih =>
    rw [List.zipIdx_cons, List.foldl_cons, ih]
    rcases Nat.lt_trichotomy off k with h | rfl | h
    · simp [show ¬ k + 1 ≤ off by omega, show ¬ k ≤ off by omega, show off ≠ k by omega]
    · simp
    · have hsub : off - k = off - (k + 1) + 1 := by omega
      simp [show k + 1 ≤ off by omega, show k ≤ off by omega, show off ≠ k by omega, hsub]

/-- After a copy the front of the array is the data, and the rest is as it was. -/
theorem written_copyOf {α : Type} (data : List α) (p : Nat → α) (off : Nat) :
    written p (copyOf data) off = (data[off]?).getD (p off) := by
  rw [written, copyOf, List.foldl_map, written_zipIdx]
  simp

end TenzorBus
