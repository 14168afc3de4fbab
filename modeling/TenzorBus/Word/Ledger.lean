import Mathlib.Data.Multiset.Range

/-!
# Ledgers

A counter issues the values `f 0`, `f 1`, …, one after the other. A value that has been issued is
out; it is spent, or it is lost, or it goes back to the counter if it is the last one issued. The
ledger says where every value is. As long as `f` does not repeat itself no value is in two places.

* `Ledger.Balanced` : what has been issued is spent, out or lost
* `balanced_issue_iff` : issuing a value and taking it back
* `Balanced.nodup` : no value is in two places
-/

namespace TenzorBus

variable {α : Type*}

/-- How many values have been issued and not been taken back, and where they are. -/
structure Ledger (α : Type*) where
  count : Nat
  spent : Multiset α
  out : Multiset α
  lost : Multiset α

namespace Ledger

/-- The ledger accounts for every value of `f` that has been issued. -/
def Balanced (f : Nat → α) (l : Ledger α) : Prop :=
  l.spent + l.out + l.lost = (Multiset.range l.count).map f

variable {f : Nat → α} {m : Nat} {s o x : Multiset α} {a : α}

theorem balanced_empty : Balanced f ⟨0, 0, 0, 0⟩ := rfl

/-- The next value is issued, or the last one is taken back. -/
theorem balanced_issue_iff : Balanced f ⟨m + 1, s, f m ::ₘ o, x⟩ ↔ Balanced f ⟨m, s, o, x⟩ := by
  unfold Balanced
  rw [Multiset.range_succ, Multiset.map_cons, Multiset.add_cons, Multiset.cons_add]
  exact Multiset.cons_inj_right _

/-- A value that is out is spent. -/
theorem Balanced.spend (h : Balanced f ⟨m, s, a ::ₘ o, x⟩) : Balanced f ⟨m, a ::ₘ s, o, x⟩ := by
  unfold Balanced at h ⊢
  rw [← h, Multiset.add_cons, Multiset.cons_add]

/-- A value that is out is lost. -/
theorem Balanced.lose (h : Balanced f ⟨m, s, a ::ₘ o, x⟩) : Balanced f ⟨m, s, o, a ::ₘ x⟩ := by
  unfold Balanced at h ⊢
  rw [← h, Multiset.add_cons, Multiset.add_cons, Multiset.cons_add]

/-- Something has been issued before something is out. -/
theorem Balanced.count_pos (h : Balanced f ⟨m, s, a ::ₘ o, x⟩) : 0 < m := by
  unfold Balanced at h
  have hcard := congrArg Multiset.card h
  simp only [Multiset.card_add, Multiset.card_cons, Multiset.card_map, Multiset.card_range] at hcard
  omega

/-- Where `f` does not repeat itself no value is in two places. -/
theorem Balanced.nodup (h : Balanced f ⟨m, s, o, x⟩)
    (hf : ∀ i < m, ∀ j < m, f i = f j → i = j) : (s + o).Nodup := by
  have hall : (s + o + x).Nodup := by
    rw [show s + o + x = (Multiset.range m).map f from h]
    refine Multiset.Nodup.map_on ?_ (Multiset.nodup_range m)
    intro i hi j hj
    exact hf i (Multiset.mem_range.mp hi) j (Multiset.mem_range.mp hj)
  exact (Multiset.nodup_add.mp hall).1

/-- The next value is nowhere yet. -/
theorem Balanced.fresh (h : Balanced f ⟨m, s, o, x⟩) (hf : ∀ i < m, f i ≠ f m) :
    f m ∉ s + o := by
  intro hm
  have hall : f m ∈ s + o + x := Multiset.mem_add.mpr (.inl hm)
  rw [show s + o + x = (Multiset.range m).map f from h] at hall
  obtain ⟨i, hi, he⟩ := Multiset.mem_map.mp hall
  exact hf i (Multiset.mem_range.mp hi) he

/-- If nothing is out and nothing is lost, then what is spent is what has been issued. -/
theorem Balanced.spent_eq (h : Balanced f ⟨m, s, 0, 0⟩) : s = (Multiset.range m).map f := by
  unfold Balanced at h
  rwa [Multiset.add_zero, Multiset.add_zero] at h

end Ledger

end TenzorBus
