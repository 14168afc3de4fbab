import TenzorBus.Sequential.Producer
import TenzorBus.Ring.Script
import TenzorBus.Word.Oldest

/-!
# Oldest first

What the two passes over the slots find, where the sequences lie in a window of half the range: the
slot that `reserve_header` overwrites, and the publication that `scan_oldest` hands out.

* `InWindow` : the window
* `Ring.selected_spec` : the slot of the next publication
* `Ring.scanned_spec` : the next publication for a consumer
* `oldest_first` : both passes, as programs
-/

namespace TenzorBus

open Conc Serial

variable {P : Platform} {n : Nat} {r : Ring n} {start : UInt64} {i : Fin n}

/-! ## the window -/

/-- How far sequence `a` lies behind the start of the window. -/
def seqAge (start a : UInt64) : Nat := (a - start).toNat

/-- Sequence `a` is one of the `2 ^ 63` consecutive values from `start` on. -/
def InWindow (start a : UInt64) : Prop := seqAge start a < 2 ^ 63

instance (start a : UInt64) : Decidable (InWindow start a) := inferInstanceAs (Decidable (_ < _))

theorem seqNewer_iff_of_window {a b : UInt64} (ha : InWindow start a) (hb : InWindow start b) :
    seqNewer a b = true ↔ seqAge start b < seqAge start a := by
  unfold InWindow at ha hb
  have hage : ∀ c, seqAge start c = age start.toBitVec c.toBitVec := fun _ => rfl
  rw [hage] at ha hb
  rw [seqNewer_eq, @newer_iff_of_window _ start.toBitVec _ _ (by omega) (by omega), hage, hage]

theorem seqAge_inj {a b : UInt64} (h : seqAge start a = seqAge start b) : a = b := by
  have hsub : a - start = b - start := UInt64.toNat_inj.mp h
  calc a = a - start + start := (UInt64.sub_add_cancel a start).symm
    _ = b - start + start := by rw [hsub]
    _ = b := UInt64.sub_add_cancel b start

/-! ## the slot of a publication -/

/-- A publication that nobody reads any more. -/
def Ring.Reclaimable (r : Ring n) (i : Fin n) : Prop :=
  (r.slots i).state = .committed ∧ (r.slots i).readersMask = 0

instance (r : Ring n) (i : Fin n) : Decidable (r.Reclaimable i) :=
  inferInstanceAs (Decidable (_ ∧ _))

/-- The sequence and the slot. -/
def Ring.candidate (r : Ring n) (i : Fin n) : UInt64 × Fin n := ((r.slots i).sequence, i)

/-- The two halves of the pass. -/
theorem Ring.foldl_selectRound (r : Ring n) (xs : List (Fin n)) (free : Option (Fin n))
    (oldest : Option (UInt64 × Fin n)) :
    xs.foldl r.selectRound (free, oldest) =
      (free.or (xs.find? fun i => (r.slots i).state = .free),
        xs.foldl (fun best i =>
          if r.Reclaimable i then keepOldest seqNewer best (r.candidate i) else best) oldest) := by
  induction xs generalizing free oldest with
  | nil => simp
  | cons i xs ih =>
    have hround : r.selectRound (free, oldest) i =
        (free.or (if (r.slots i).state = .free then some i else none),
          if r.Reclaimable i then keepOldest seqNewer oldest (r.candidate i) else oldest) := by
      unfold Ring.selectRound
      have hstates : ∀ x : SlotState, x = .free ∨ x = .committed ∨ x = .writing := by
        intro x
        cases x <;> simp
      rcases hstates (r.slots i).state with h | h | h
      · simp [h, Ring.Reclaimable]
      · by_cases hmask : (r.slots i).readersMask = 0
        · cases oldest with
          | none => simp [h, hmask, Ring.Reclaimable, Ring.candidate, keepOldest]
          | some b =>
            cases hnewer : seqNewer b.1 (r.slots i).sequence <;>
              simp [h, hmask, hnewer, Ring.Reclaimable, Ring.candidate, keepOldest]
        · simp [h, hmask, Ring.Reclaimable]
      · simp [h, Ring.Reclaimable]
    rw [List.foldl_cons, hround, ih, List.foldl_cons, List.find?_cons]
    by_cases hfree : (r.slots i).state = .free
    · cases free <;> simp [hfree]
    · cases free <;> simp [hfree]

/-- The slot that a publication should get. -/
inductive Ring.Selects (r : Ring n) (start : UInt64) (i : Fin n) : Prop
  | free (h : (r.slots i).state = .free) (first : ∀ j < i, (r.slots j).state ≠ .free)
  | oldest (h : r.Reclaimable i) (taken : ∀ j, (r.slots j).state ≠ .free)
      (least : ∀ j, r.Reclaimable j →
        seqAge start (r.slots i).sequence ≤ seqAge start (r.slots j).sequence)

/-- What the pass over the reclaimable slots finds. -/
theorem Ring.oldest_spec (r : Ring n) (start : UInt64) (φ : Fin n → Prop) [DecidablePred φ]
    (hwindow : ∀ i, φ i → InWindow start (r.slots i).sequence) :
    match (List.finRange n).foldl (fun best i =>
        if φ i then keepOldest seqNewer best (r.candidate i) else best) none with
    | none => ∀ i, ¬φ i
    | some y => ∃ i, y = r.candidate i ∧ φ i ∧ ∀ j, φ j →
        seqAge start (r.slots i).sequence ≤ seqAge start (r.slots j).sequence := by
  have hmem : ∀ x, x ∈ ((List.finRange n).filter fun i => φ i).map r.candidate ↔
      ∃ i, φ i ∧ r.candidate i = x := by
    intro x
    simp
  have hpass := foldl_keepOldest seqNewer (seqAge start)
    (((List.finRange n).filter fun i => φ i).map r.candidate) (by
      intro x hx y hy
      obtain ⟨i, hi, rfl⟩ := (hmem x).mp hx
      obtain ⟨j, hj, rfl⟩ := (hmem y).mp hy
      exact seqNewer_iff_of_window (hwindow i hi) (hwindow j hj))
  rw [foldl_filter_keepOldest]
  generalize List.foldl (keepOldest seqNewer) none _ = found at hpass ⊢
  cases found with
  | none =>
    intro i hi
    have := (hmem (r.candidate i)).mpr ⟨i, hi, rfl⟩
    rw [hpass] at this
    cases this
  | some y =>
    obtain ⟨i, hi, rfl⟩ := (hmem y).mp hpass.mem
    exact ⟨i, rfl, hi, fun j hj => hpass.least _ ((hmem (r.candidate j)).mpr ⟨j, hj, rfl⟩)⟩

/-- The slot of the next publication. -/
theorem Ring.selected_spec
    (hwindow : ∀ i, r.Reclaimable i → InWindow start (r.slots i).sequence) :
    (r.selected = none ↔ ∀ i, (r.slots i).state ≠ .free ∧ ¬r.Reclaimable i) ∧
      ∀ i, r.selected = some i → r.Selects start i := by
  have hpass := r.oldest_spec start r.Reclaimable hwindow
  have hselected : r.selected = ((List.finRange n).find? fun i => (r.slots i).state = .free).or
      (((List.finRange n).foldl (fun best i =>
        if r.Reclaimable i then keepOldest seqNewer best (r.candidate i) else best) none).map
          (·.2)) := by
    unfold Ring.selected
    rw [Ring.foldl_selectRound]
    rfl
  rw [hselected]
  cases hfree : (List.finRange n).find? fun i => (r.slots i).state = .free with
  | some i =>
    obtain ⟨hi, before, after, hsplit, hnot⟩ := List.find?_eq_some_iff_append.mp hfree
    constructor
    · constructor
      · intro h
        cases h
      · intro h
        exact absurd (of_decide_eq_true hi) (h i).1
    · intro j hj
      cases hj
      refine .free (of_decide_eq_true hi) fun j hji hj => ?_
      -- whatever precedes `i` comes before it in the list
      have hjmem : j ∈ before := by
        have hsorted := List.pairwise_lt_finRange n
        rw [hsplit] at hsorted
        have hmem : j ∈ before ++ i :: after := hsplit ▸ List.mem_finRange j
        rcases List.mem_append.mp hmem with h | h
        · exact h
        · rcases List.mem_cons.mp h with rfl | h
          · exact absurd hji (lt_irrefl _)
          · have := (List.pairwise_cons.mp (List.pairwise_append.mp hsorted).2.1).1 j h
            exact absurd hji (not_lt.mpr this.le)
      have := hnot j hjmem
      simp [hj] at this
  | none =>
    have htaken : ∀ j, (r.slots j).state ≠ .free := fun j hj => by
      have := List.find?_eq_none.mp hfree j (List.mem_finRange j)
      simp [hj] at this
    rw [Option.none_or]
    generalize List.foldl _ none (List.finRange n) = found at hpass ⊢
    cases found with
    | none => exact ⟨⟨fun _ i => ⟨htaken i, hpass i⟩, fun _ => rfl⟩, nofun⟩
    | some y =>
      obtain ⟨i, rfl, hi, hleast⟩ := hpass
      constructor
      · constructor
        · intro h
          cases h
        · intro h
          exact absurd hi (h i).2
      · intro j hj
        cases hj
        exact .oldest hi htaken hleast

/-! ## the next publication for a consumer -/

/-- A publication that carries the bit of registry entry `index`. -/
def Ring.Addressed (r : Ring n) (index : Fin 64) (i : Fin n) : Prop :=
  (r.slots i).state = .committed ∧ (r.slots i).readersMask &&& bit index ≠ 0

/-- `scanSlot` on a ring that stays as it is. -/
def Ring.scanRound (r : Ring n) (index : Fin 64) (last : UInt64) (best : Option (UInt64 × Fin n))
    (i : Fin n) : Option (UInt64 × Fin n) :=
  if (r.slots i).state = .committed ∧ (r.slots i).readersMask &&& bit index ≠ 0 ∧
      seqNewer (r.slots i).sequence last = true then
    keepOldest seqNewer best (r.candidate i)
  else best

/-- What `scan_oldest` finds. -/
def Ring.scanned (r : Ring n) (index : Fin 64) (last : UInt64) : Option (UInt64 × Fin n) :=
  (List.finRange n).foldl (r.scanRound index last) none

theorem scanSlot_yields (self : Consumer) (last : UInt64) (best : Option (UInt64 × Fin n))
    (i : Fin n) (s : State P n) :
    (Consumer.scanSlot self last best i : RingM P n _).Yields s
      (s.ring.scanRound self.index last best i) s := by
  unfold Ring.scanRound
  refine .get ?_
  by_cases hstate : (s.ring.slots i).state = .committed
  swap
  · rw [if_pos hstate, if_neg fun h => hstate h.1]
    exact .ret _ _
  rw [if_neg (not_not.mpr hstate)]
  refine .get ?_
  by_cases hbit : (s.ring.slots i).readersMask &&& bit self.index = 0
  · rw [if_pos hbit, if_neg fun h => h.2.1 hbit]
    exact .ret _ _
  rw [if_neg hbit]
  refine .get ?_
  by_cases hnewer : seqNewer (s.ring.slots i).sequence last = true
  swap
  · rw [if_pos (by simpa using hnewer), if_neg fun h => hnewer h.2.2]
    exact .ret _ _
  rw [if_neg (by simpa using hnewer), if_pos ⟨hstate, hbit, hnewer⟩]
  cases best with
  | none => exact .ret _ _
  | some b =>
    by_cases hb : seqNewer b.1 (s.ring.slots i).sequence = true
    · have hkeep : keepOldest seqNewer (some b) (s.ring.candidate i) = some (s.ring.candidate i) :=
        if_pos hb
      rw [hkeep]
      simp only [if_pos hb]
      exact .ret _ _
    · have hkeep : keepOldest seqNewer (some b) (s.ring.candidate i) = some b := if_neg hb
      rw [hkeep]
      simp only [if_neg hb]
      exact .ret _ _

theorem scanOldest_yields (c : Nat) (self : Consumer) (s : State P n) :
    (Consumer.scanOldest c self : RingM P n _).Yields s
      (s.ring.scanned self.index ((s.consumer c).elim 0 (·.lastSequence))) s :=
  .get (.foldl (fun best i => scanSlot_yields self _ best i s) _ _)

/-- The next publication for a consumer that has taken everything up to `last`. -/
structure Ring.Next (r : Ring n) (index : Fin 64) (last start : UInt64) (i : Fin n) : Prop where
  addressed : r.Addressed index i
  newer : seqAge start last < seqAge start (r.slots i).sequence
  least : ∀ j, r.Addressed index j → seqAge start last < seqAge start (r.slots j).sequence →
    seqAge start (r.slots i).sequence ≤ seqAge start (r.slots j).sequence

theorem Ring.scanned_spec {index : Fin 64} {last : UInt64} (hlast : InWindow start last)
    (hwindow : ∀ i, r.Addressed index i → InWindow start (r.slots i).sequence) :
    (r.scanned index last = none ↔ ∀ i, r.Addressed index i →
        ¬seqAge start last < seqAge start (r.slots i).sequence) ∧
      ∀ q i, r.scanned index last = some (q, i) →
        q = (r.slots i).sequence ∧ r.Next index last start i := by
  have hiff : ∀ i, ((r.slots i).state = .committed ∧ (r.slots i).readersMask &&& bit index ≠ 0 ∧
      seqNewer (r.slots i).sequence last = true) ↔
        r.Addressed index i ∧ seqAge start last < seqAge start (r.slots i).sequence := by
    intro i
    rw [← and_assoc]
    refine and_congr_right fun h => seqNewer_iff_of_window (hwindow i h) hlast
  have hpass := r.oldest_spec start
    (fun i => (r.slots i).state = .committed ∧ (r.slots i).readersMask &&& bit index ≠ 0 ∧
      seqNewer (r.slots i).sequence last = true)
    fun i h => hwindow i ((hiff i).mp h).1
  unfold Ring.scanned Ring.scanRound
  generalize List.foldl _ none (List.finRange n) = found at hpass ⊢
  cases found with
  | none =>
    constructor
    · constructor
      · intro _ i hi hnewer
        exact hpass i ((hiff i).mpr ⟨hi, hnewer⟩)
      · exact fun _ => rfl
    · nofun
  | some y =>
    obtain ⟨i, rfl, hi, hleast⟩ := hpass
    obtain ⟨haddressed, hnewer⟩ := (hiff i).mp hi
    constructor
    · constructor
      · intro h
        cases h
      · intro h
        exact absurd hnewer (h i haddressed)
    · intro q j hj
      cases hj
      exact ⟨rfl, haddressed, hnewer, fun j hj hlt => hleast j ((hiff j).mpr ⟨hj, hlt⟩)⟩

/-! ## both passes -/

/-- In a window `seqNewer` is a strict total order, and that in which the sequences are assigned;
`reserve_header` selects the first free slot or else the oldest publication that nobody reads any
more, and `scan_oldest` finds the oldest publication for the consumer, wherever the window lies. -/
theorem oldest_first (start : UInt64) (s : State P n) :
    ((∀ a b, InWindow start a → InWindow start b →
        (seqNewer a b = true ↔ seqAge start b < seqAge start a)) ∧
      (∀ a b, InWindow start a → InWindow start b →
        (seqNewer a b = true ∧ a ≠ b ∧ seqNewer b a = false) ∨
        (seqNewer a b = false ∧ a = b ∧ seqNewer b a = false) ∨
        (seqNewer a b = false ∧ a ≠ b ∧ seqNewer b a = true)) ∧
      ∀ a b c, InWindow start a → InWindow start b → InWindow start c →
        seqNewer a b = true → seqNewer b c = true → seqNewer a c = true) ∧
    ((∀ i, s.ring.Reclaimable i → InWindow start (s.ring.slots i).sequence) →
      ∃ chosen, (Producer.chooseSlot : RingM P n _).Yields s chosen s ∧
        (chosen = none ↔ ∀ i, (s.ring.slots i).state ≠ .free ∧ ¬s.ring.Reclaimable i) ∧
        ∀ i, chosen = some i → s.ring.Selects start i) ∧
    ∀ (c : Nat) (self : Consumer), s.consumer c = some self → InWindow start self.lastSequence →
      (∀ i, s.ring.Addressed self.index i → InWindow start (s.ring.slots i).sequence) →
      ∃ found, (Consumer.scanOldest c self : RingM P n _).Yields s found s ∧
        (found = none ↔ ∀ i, s.ring.Addressed self.index i →
          ¬seqAge start self.lastSequence < seqAge start (s.ring.slots i).sequence) ∧
        ∀ q i, found = some (q, i) → q = (s.ring.slots i).sequence ∧
          s.ring.Next self.index self.lastSequence start i := by
  refine ⟨⟨fun a b => seqNewer_iff_of_window, ?_, ?_⟩, ?_, ?_⟩
  · intro a b ha hb
    have hab := seqNewer_iff_of_window ha hb
    have hba := seqNewer_iff_of_window hb ha
    rcases Nat.lt_trichotomy (seqAge start a) (seqAge start b) with h | h | h
    · refine .inr (.inr ⟨?_, fun he => by rw [he] at h; omega, hba.mpr h⟩)
      exact Bool.eq_false_iff.mpr fun hn => absurd (hab.mp hn) (by omega)
    · refine .inr (.inl ⟨?_, seqAge_inj h, ?_⟩)
      · exact Bool.eq_false_iff.mpr fun hn => absurd (hab.mp hn) (by omega)
      · exact Bool.eq_false_iff.mpr fun hn => absurd (hba.mp hn) (by omega)
    · refine .inl ⟨hab.mpr h, fun he => by rw [he] at h; omega, ?_⟩
      exact Bool.eq_false_iff.mpr fun hn => absurd (hba.mp hn) (by omega)
  · intro a b c ha hb hc hab hbc
    have h₁ := (seqNewer_iff_of_window ha hb).mp hab
    have h₂ := (seqNewer_iff_of_window hb hc).mp hbc
    exact (seqNewer_iff_of_window ha hc).mpr (h₂.trans h₁)
  · intro hwindow
    obtain ⟨hnone, hsome⟩ := Ring.selected_spec hwindow
    exact ⟨_, chooseSlot_yields, hnone, hsome⟩
  · intro c self hself hlast hwindow
    have hscan := scanOldest_yields (P := P) c self s
    rw [hself, Option.elim] at hscan
    obtain ⟨hnone, hsome⟩ := Ring.scanned_spec hlast hwindow
    exact ⟨_, hscan, hnone, hsome⟩

/-- Slots across the wraparound, with the sequences 2, 1, 0 and `2 ^ 64 - 1`. Consumer 0 has still
to release the first one and the third one. -/
def State.wrapped : State .single 4 :=
  { State.init 3 () with
    ring :=
      { Ring.format 4 3 with
        slots := fun i =>
          { Slot.zero with
            state := .committed
            sequence := 2 - UInt64.ofNat i
            readersMask := if i.val % 2 = 0 then 1 else 0 } }
    consumer := fun _ =>
      some { index := 0, generation := 1, lastSequence := 0 - 2, closed := false } }

/-- The producer takes the slot of `2 ^ 64 - 1` and not the one of 1, and the consumer the one of 0
and not the one of 2. -/
theorem oldest_first_wrapped :
    (Producer.chooseSlot : RingM .single 4 _).Yields State.wrapped (some 3) State.wrapped ∧
      State.wrapped.ring.Selects (0 - 2) 3 ∧
      (Consumer.scanOldest 0
        { index := 0, generation := 1, lastSequence := 0 - 2, closed := false } :
        RingM .single 4 _).Yields State.wrapped (some (0, 2)) State.wrapped ∧
      State.wrapped.ring.Next 0 (0 - 2) (0 - 2) 2 := by
  have hwindow : ∀ i, InWindow (0 - 2) (State.wrapped.ring.slots i).sequence := by decide
  obtain ⟨-, hselect, hscan⟩ := oldest_first (0 - 2) State.wrapped
  obtain ⟨chosen, hchosen, -, hspec⟩ := hselect fun i _ => hwindow i
  obtain ⟨found, hfound, -, hspec'⟩ := hscan 0 _ rfl (by decide) fun i _ => hwindow i
  have hslot : chosen = some 3 :=
    (hchosen.unique (.init 4 3) chooseSlot_yields).1.trans (by decide)
  have hbest : found = some (0, 2) :=
    (hfound.unique (.init 4 3) (scanOldest_yields 0 _ _)).1.trans (by decide)
  exact ⟨hslot ▸ hchosen, hspec 3 hslot, hbest ▸ hfound, (hspec' 0 2 hbest).2⟩

end TenzorBus
