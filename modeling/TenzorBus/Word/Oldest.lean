import TenzorBus.Word.Serial
import Mathlib.Data.List.Basic

/-!
# The oldest of some serial numbers

Numbers in a window of half the range are ordered by their distance from its start, wherever the
window begins. A pass that keeps the older one of two finds the oldest one of all.

* `newer_iff_of_window` : in a window the comparison is the order of the distances
* `keepOldest`, `Oldest` : one round of a pass, and what a pass finds
-/

namespace TenzorBus.Serial

variable {w : Nat}

/-- How far `a` lies behind the start of the window. -/
def age (start a : BitVec w) : Nat := (a - start).toNat

/-- In a window of half the range the comparison is the order of the distances from its start. -/
theorem newer_iff_of_window {start a b : BitVec w} (ha : 2 * age start a < 2 ^ w)
    (hb : 2 * age start b < 2 ^ w) : newer a b = true ↔ age start b < age start a := by
  have hpow : ((2 ^ w : Nat) : Int) = 2 ^ w := by push_cast; rfl
  have hsub : a - b = (a - start) - (b - start) := by
    rw [BitVec.sub_eq_add_neg, BitVec.sub_eq_add_neg, BitVec.sub_eq_add_neg,
      BitVec.sub_eq_add_neg, BitVec.neg_add, BitVec.sub_eq_add_neg, BitVec.neg_neg,
      BitVec.add_comm (-b) start, ← BitVec.add_assoc, BitVec.add_assoc a (-start) start,
      BitVec.add_left_neg, BitVec.add_zero]
  have hword : ∀ c : BitVec w, BitVec.ofInt w (age start c) = c - start := fun c => by
    rw [age, BitVec.ofInt_natCast, BitVec.ofNat_toNat, BitVec.setWidth_eq]
  have h := newer_ofInt_iff (w := w) (a := age start a) (b := age start b) (by omega) (by omega)
  rw [hword, hword] at h
  unfold newer at h ⊢
  rw [hsub, h]
  exact Int.ofNat_lt

/-! ## a pass -/

variable {α ι : Type}

/-- One round of a pass: the older one of what has been found and what comes next. -/
def keepOldest (later : α → α → Bool) (best : Option (α × ι)) (x : α × ι) : Option (α × ι) :=
  match best with
  | some b => if later b.1 x.1 then some x else some b
  | none => some x

/-- What a pass over `xs` finds: one that nothing precedes. -/
structure Oldest (rank : α → Nat) (xs : List (α × ι)) (y : α × ι) : Prop where
  mem : y ∈ xs
  least : ∀ x ∈ xs, rank y.1 ≤ rank x.1

theorem foldl_keepOldest (later : α → α → Bool) (rank : α → Nat) (xs : List (α × ι))
    (hlater : ∀ x ∈ xs, ∀ y ∈ xs, later x.1 y.1 = true ↔ rank y.1 < rank x.1) :
    match xs.foldl (keepOldest later) none with
    | none => xs = []
    | some y => Oldest rank xs y := by
  -- the pass has found the oldest one of those that it has seen
  have hpass : ∀ (seen : List (α × ι)) (best : Option (α × ι)) (rest : List (α × ι)),
      seen ++ rest = xs → (∀ y, best = some y → Oldest rank seen y) → (best = none → seen = []) →
      match rest.foldl (keepOldest later) best with
      | none => xs = []
      | some y => Oldest rank xs y := by
    intro seen best rest
    induction rest generalizing seen best with
    | nil =>
      intro hxs hsome hnone
      rw [List.append_nil] at hxs
      subst hxs
      cases best with
      | none => exact hnone rfl
      | some y => exact hsome y rfl
    | cons x rest ih =>
      intro hxs hsome hnone
      rw [List.foldl_cons]
      refine ih (seen ++ [x]) _ (by rw [List.append_assoc]; exact hxs) ?_ ?_
      · intro y hy
        cases best with
        | none =>
          cases hy
          rw [hnone rfl]
          exact ⟨List.mem_singleton_self x, fun z hz => by rw [List.mem_singleton.mp hz]⟩
        | some b =>
          obtain ⟨hb, hleast⟩ := hsome b rfl
          have hx : x ∈ xs := hxs ▸ List.mem_append_right _ List.mem_cons_self
          have hbx := hlater b (hxs ▸ List.mem_append_left _ hb) x hx
          simp only [keepOldest] at hy
          split at hy
          · next hl =>
            cases hy
            refine ⟨List.mem_append_right _ (List.mem_singleton_self x), fun z hz => ?_⟩
            rcases List.mem_append.mp hz with hz | hz
            · exact (hbx.mp hl).le.trans (hleast z hz)
            · rw [List.mem_singleton.mp hz]
          · next hl =>
            cases hy
            refine ⟨List.mem_append_left _ hb, fun z hz => ?_⟩
            rcases List.mem_append.mp hz with hz | hz
            · exact hleast z hz
            · rw [List.mem_singleton.mp hz]
              exact not_lt.mp fun h => hl (hbx.mpr h)
      · intro h
        cases best with
        | none => cases h
        | some b =>
          simp only [keepOldest] at h
          split at h <;> cases h
  exact hpass [] none xs rfl nofun fun _ => rfl

/-- A pass over some of the numbers. -/
theorem foldl_filter_keepOldest {κ : Type} {later : α → α → Bool} (φ : κ → Prop)
    [DecidablePred φ] (f : κ → α × ι) (xs : List κ) (best : Option (α × ι)) :
    xs.foldl (fun best k => if φ k then keepOldest later best (f k) else best) best =
      ((xs.filter fun k => φ k).map f).foldl (keepOldest later) best := by
  rw [List.foldl_map, List.foldl_filter]
  simp only [decide_eq_true_eq]

end TenzorBus.Serial
