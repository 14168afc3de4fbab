import Mathlib.Data.List.DropRight
import Mathlib.Data.List.TakeWhile

/-!
# Stripping, runs, and what a cut hides

* `strip`, `strip_append` : the ends of a list are taken off
* `subRuns`, `repeats` : each run is replaced by one element, and which elements that leaves out
* `take_kept_iff` : when leaving out elements does not show in the first few
-/

namespace TenzorBus.Text

variable {α : Type} {p q : α → Bool}

/-! ## the ends of a list -/

/-- The list without what satisfies `p` at its ends. -/
def strip (p : α → Bool) (l : List α) : List α := (l.dropWhile p).rdropWhile p

theorem rdropWhile_append_of_pos (l : List α) {b : List α} (hb : ∀ c ∈ b, p c = true) :
    (l ++ b).rdropWhile p = l.rdropWhile p := by
  unfold List.rdropWhile
  rw [List.reverse_append,
    List.dropWhile_append_of_pos fun c hc => hb c (List.mem_reverse.mp hc)]

/-- What is taken off anyway does not matter. -/
theorem strip_append {a b : List α} (ha : ∀ c ∈ a, p c = true) (hb : ∀ c ∈ b, p c = true)
    (l : List α) : strip p (a ++ l ++ b) = strip p l := by
  unfold strip
  rw [List.append_assoc, List.dropWhile_append_of_pos ha, List.dropWhile_append]
  split
  · next h =>
    -- all of `l` is taken off
    have hl : l.dropWhile p = [] := List.isEmpty_iff.mp h
    rw [hl, List.dropWhile_eq_nil_iff.mpr hb]
  · exact rdropWhile_append_of_pos _ hb

/-- A list with what is taken off at its ends. -/
theorem strip_split (p : α → Bool) (l : List α) :
    l = l.takeWhile p ++ strip p l ++ (l.dropWhile p).rtakeWhile p := by
  unfold strip
  rw [List.append_assoc, List.rdropWhile_append_rtakeWhile, List.takeWhile_append_dropWhile]

/-- To strip more. -/
theorem strip_strip (h : ∀ c, p c = true → q c = true) (l : List α) :
    strip q (strip p l) = strip q l := by
  have hsplit := strip_split p l
  conv_rhs => rw [hsplit]
  exact (strip_append (fun c hc => h c (List.mem_takeWhile_imp hc))
    (fun c hc => h c (List.mem_rtakeWhile_imp hc)) _).symm

/-! ## runs -/

/-- Each run of what satisfies `p` is replaced by one `r`. `run` says that one is going on. -/
def subRuns (p : α → Bool) (r : α) : Bool → List α → List α
  | _, [] => []
  | run, c :: cs =>
    if p c then (if run then subRuns p r true cs else r :: subRuns p r true cs)
    else c :: subRuns p r false cs

/-- Whether an element goes on with a run. -/
def repeats (p : α → Bool) : Bool → List α → List (α × Bool)
  | _, [] => []
  | run, c :: cs => (c, run && p c) :: repeats p (p c) cs

theorem repeats_fst (p : α → Bool) (run : Bool) (l : List α) :
    (repeats p run l).map Prod.fst = l := by
  induction l generalizing run with
  | nil => rfl
  | cons c cs ih => rw [repeats, List.map_cons, ih]

theorem of_mem_repeats {run : Bool} {l : List α} {x : α × Bool} (hx : x ∈ repeats p run l)
    (hout : x.2 = true) : p x.1 = true := by
  induction l generalizing run with
  | nil => cases hx
  | cons c cs ih =>
    rcases List.mem_cons.mp hx with rfl | hx
    · exact (Bool.and_eq_true_iff.mp hout).2
    · exact ih hx

/-- What is left where runs are replaced. -/
theorem subRuns_eq (p : α → Bool) (r : α) (run : Bool) (l : List α) :
    subRuns p r run l =
      ((repeats p run l).filter fun x => !x.2).map fun x => if p x.1 then r else x.1 := by
  induction l generalizing run with
  | nil => rfl
  | cons c cs ih =>
    unfold subRuns repeats
    cases hc : p c
    · simp [hc, ih]
    · cases run <;> simp [hc, ih]

/-! ## what a cut hides -/

/-- The elements that are not left out. -/
def kept (xs : List (α × Bool)) : List α := (xs.filter fun x => !x.2).map Prod.fst

theorem kept_cons_out (c : α) (xs : List (α × Bool)) : kept ((c, true) :: xs) = kept xs := rfl

theorem kept_cons (c : α) (xs : List (α × Bool)) : kept ((c, false) :: xs) = c :: kept xs := rfl

theorem kept_append (xs ys : List (α × Bool)) : kept (xs ++ ys) = kept xs ++ kept ys := by
  simp [kept]

theorem kept_out (l : List α) : kept (l.map fun c => (c, true)) = [] := by
  simp [kept]

variable [DecidableEq α]

/-- The first `k` elements that are not left out are all `r`. -/
def padded (r : α) : Nat → List (α × Bool) → Bool
  | 0, _ => true
  | _ + 1, [] => false
  | k + 1, (c, out) :: xs => if out then padded r (k + 1) xs else c = r && padded r k xs

/-- Up to `k` elements nothing is left out, or those that are kept from there on are all `r`. -/
def hidden (r : α) : Nat → List (α × Bool) → Bool
  | 0, _ => true
  | _ + 1, [] => true
  | k + 1, (_, out) :: xs => if out then padded r (k + 1) xs else hidden r k xs

/-- Behind some `r` nothing shows exactly if `r` is all that comes. -/
theorem take_replicate_append_iff {r : α} {xs : List (α × Bool)}
    (hr : ∀ x ∈ xs, x.2 = true → x.1 = r) (k j : Nat) :
    (List.replicate (j + 1) r ++ xs.map Prod.fst).take k = (kept xs).take k ↔
      padded r k xs = true := by
  induction xs generalizing k j with
  | nil =>
    cases k with
    | zero => simp [padded]
    | succ k => simp [padded, kept, List.replicate_succ]
  | cons x xs ih =>
    obtain ⟨c, out⟩ := x
    have hxs := fun x hx => hr x (List.mem_cons_of_mem _ hx)
    cases k with
    | zero => simp [padded]
    | succ k =>
      cases out
      · rw [kept_cons, List.replicate_succ, List.cons_append, List.take_succ_cons,
          List.take_succ_cons, List.cons.injEq, List.map_cons]
        by_cases hc : r = c
        · subst hc
          have happend : List.replicate j r ++ r :: xs.map Prod.fst =
              List.replicate (j + 1) r ++ xs.map Prod.fst := by
            rw [List.replicate_succ', List.append_assoc, List.singleton_append]
          rw [happend, ih hxs k j]
          simp [padded]
        · simp [padded, hc, Ne.symm hc]
      · have hc : c = r := hr (c, true) List.mem_cons_self rfl
        subst hc
        have happend : List.replicate (j + 1) c ++ c :: xs.map Prod.fst =
            List.replicate (j + 1 + 1) c ++ xs.map Prod.fst := by
          rw [List.replicate_succ' (n := j + 1), List.append_assoc, List.singleton_append]
        rw [List.map_cons, happend, kept_cons_out, ih hxs (k + 1) (j + 1)]
        simp [padded]

/-- If what is left out is always `r`, leaving it out does not show in the first `k` elements
exactly if it is hidden. -/
theorem take_kept_iff {r : α} {xs : List (α × Bool)} (hr : ∀ x ∈ xs, x.2 = true → x.1 = r)
    (k : Nat) : (xs.map Prod.fst).take k = (kept xs).take k ↔ hidden r k xs = true := by
  induction xs generalizing k with
  | nil => cases k <;> simp [hidden, kept]
  | cons x xs ih =>
    obtain ⟨c, out⟩ := x
    have hxs := fun x hx => hr x (List.mem_cons_of_mem _ hx)
    cases k with
    | zero => simp [hidden]
    | succ k =>
      cases out
      · rw [List.map_cons, kept_cons, List.take_succ_cons, List.take_succ_cons, List.cons.injEq]
        simp only [true_and]
        rw [ih hxs k]
        simp [hidden]
      · have hc : c = r := hr (c, true) List.mem_cons_self rfl
        subst hc
        have := take_replicate_append_iff hxs (k + 1) 0
        rw [List.map_cons, kept_cons_out]
        simpa [hidden] using this

end TenzorBus.Text
