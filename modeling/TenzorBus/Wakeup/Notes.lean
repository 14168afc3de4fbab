import TenzorBus.Ring.Reads
import TenzorBus.Ring.Watched

/-!
# Who still has to signal

Notes on a run: who has made which slot reclaimable since a producer took the registry lock, and
who of them has bumped `G_RECLAIM_FUTEX` since.

* `Reclaimable` : a slot that `reserve_header` may take
* `Notes`, `observe` : the notes
* `Prompt` : nobody signals between the search of a producer and its sleep
* `rules` : what every actor may do, and what holds between any two actions
-/

namespace TenzorBus.Wakeup

open Conc

variable {P : Platform} {n : Nat} {L : RingLayout}

/-! ## the notes -/

/-- `reserve_header` may take the slot. -/
def Reclaimable (t : Slot) : Prop := t.state = .free ∨ t.state = .committed ∧ t.readersMask = 0

instance (t : Slot) : Decidable (Reclaimable t) := inferInstanceAs (Decidable (_ ∨ _))

/-- What has become of a slot since a producer took the lock: nobody has made it reclaimable, or
whoever did so last has not signalled since, or has. -/
inductive Mark
  | same
  | owed (a : Actor)
  | signalled
  deriving DecidableEq

/-- What is noted of a run. -/
structure Notes (n : Nat) where
  /-- How often `G_RECLAIM_FUTEX` has been bumped. -/
  signals : Nat
  /-- The slots since writer `t` last took the registry lock. -/
  mark : Nat → Fin n → Mark
  /-- Since then a reservation has been begun or a slot has been committed. -/
  busy : Nat → Bool
  /-- `signals` when writer `t` last fell asleep. -/
  slept : Nat → Nat

/-- The notes at the beginning. -/
def Notes.init (n : Nat) : Notes n :=
  { signals := 0, mark := fun _ _ => .same, busy := fun _ => false, slept := fun _ => 0 }

/-- Writer `t` gets the registry lock. -/
def takesLock (a : Actor) (s s' : State P n) (t : Nat) : Bool :=
  decide (a = .writer t ∧ s.lock ≠ some a ∧ s'.lock = some a)

/-- Slot `j` becomes reclaimable. -/
def frees (s s' : State P n) (j : Fin n) : Bool :=
  decide (¬Reclaimable (s.ring.slots j) ∧ Reclaimable (s'.ring.slots j))

/-- `G_RECLAIM_FUTEX` is bumped. -/
def bumps (s s' : State P n) : Bool := decide (s'.ring.reclaimFutex ≠ s.ring.reclaimFutex)

/-- Writer `t` falls asleep. -/
def fallsAsleep (a : Actor) (s s' : State P n) (t : Nat) : Bool :=
  decide (a = .writer t) && (s.asleep a).isNone && (s'.asleep a).isSome

/-- What an action of `a` adds to the notes. -/
def observe : Observer Actor (State P n) (Ghost n) (Notes n) := fun a m m' w =>
  { signals := if bumps m.1 m'.1 then w.signals + 1 else w.signals
    mark := fun t j =>
      if takesLock a m.1 m'.1 t then .same
      else if frees m.1 m'.1 j then .owed a
      else if bumps m.1 m'.1 ∧ w.mark t j = .owed a then .signalled
      else w.mark t j
    busy := fun t => !takesLock a m.1 m'.1 t && (w.busy t || decide (m'.2.begun ≠ m.2.begun) ||
      decide (m'.2.published.length ≠ m.2.published.length))
    slept := fun t => if fallsAsleep a m.1 m'.1 t then w.signals else w.slept t }

/-- The memory, the history and the notes. -/
abbrev Watched (P : Platform) (n : Nat) := State P n × (Ghost n × Notes n)

/-- The ring under observation. -/
abbrev watchedRing (P : Platform) (L : RingLayout) :
    System Actor (State P L.slotCount) (Ghost L.slotCount × Notes L.slotCount) :=
  (ringSystem P L).watch observe

/-! ## the two sides -/

/-- Where a producer falls asleep while the others only release, close, abort and sweep, nobody
has signalled for a slot that became reclaimable since the producer took the lock for its search,
and still is. -/
def Prompt (m m' : Watched P n) : Prop :=
  ∀ t, m.1.asleep (.writer t) = none → (∃ v, m'.1.asleep (.writer t) = some (.reclaim, v)) →
    m.2.2.busy t = false → ∀ j, Reclaimable (m.1.ring.slots j) → m.2.2.mark t j ≠ .signalled

/-- A producer that sleeps on the value that `G_RECLAIM_FUTEX` has does not sleep past a slot that
is reclaimable: whoever made it so is still busy, and has not signalled. The others only release,
close, abort and sweep meanwhile, and they signal fewer than `2 ^ 32` times. -/
def NeverPast (c : Config Actor (State P n) (Ghost n × Notes n)) : Prop :=
  ∀ t v, c.mem.1.asleep (.writer t) = some (.reclaim, v) → c.mem.1.ring.reclaimFutex = v →
    c.mem.2.2.signals < c.mem.2.2.slept t + 2 ^ 32 → c.mem.2.2.busy t = false →
      ∀ j, Reclaimable (c.mem.1.ring.slots j) →
        ∃ a, c.mem.2.2.mark t j = .owed a ∧ c.pool a ≠ .ret ()

/-! ## what an actor may do -/

/-- Actor `a` falls asleep; a producer has found no slot since it took the lock. -/
structure FallsAsleep (a : Actor) (m m' : Watched P n) : Prop where
  awake : m.1.asleep a = none
  word : ∃ w, m'.1.asleep a = some (w, m.1.ring.futexWord w)
  ring : m'.1.ring = m.1.ring
  lock : m'.1.lock = m.1.lock
  hist : m'.2.1 = m.2.1
  searched : ∀ t, a = .writer t → ∀ j, Reclaimable (m.1.ring.slots j) → m.2.2.mark t j ≠ .same

/-- What an action of `a` does: it is noted, slots change as they may, and nobody acts who is
asleep. -/
structure Guar (a : Actor) (m m' : Watched P n) : Prop where
  noted : m'.2.2 = observe a (m.1, m.2.1) (m'.1, m'.2.1) m.2.2
  os : m'.1.os = m.1.os
  lock : m'.1.lock = m.1.lock ∨ m.1.lockFree = true ∧ m'.1.lock = some a ∨
    m.1.lock = some a ∧ m'.1.lock = none
  /-- Without the lock a slot only becomes `STATE_COMMITTED`. -/
  state : ∀ j, (m'.1.ring.slots j).state = (m.1.ring.slots j).state ∨
    (m'.1.ring.slots j).state = .committed ∨ m.1.lock = some a
  reclaim : m'.1.ring.reclaimFutex = m.1.ring.reclaimFutex ∨
    m'.1.ring.reclaimFutex = m.1.ring.reclaimFutex + 1
  awake : m.1.asleep a = none ∨ m'.1.asleep a = none
  asleep : ∀ b, m'.1.asleep b = m.1.asleep b ∨ m'.1.asleep b = none ∨ b = a ∧ FallsAsleep a m m'

/-- The word agrees with the notes, and a producer that sleeps has seen every slot taken, or
somebody has to signal for it. -/
structure Inv (m : Watched P n) : Prop where
  word : m.1.ring.reclaimFutex = UInt32.ofNat m.2.2.signals
  asleep : ∀ t v, m.1.asleep (.writer t) = some (.reclaim, v) →
    v = UInt32.ofNat (m.2.2.slept t) ∧ m.2.2.slept t ≤ m.2.2.signals ∧
      (m.2.2.signals = m.2.2.slept t → m.2.2.busy t = false →
        ∀ j, Reclaimable (m.1.ring.slots j) → ∃ a, m.2.2.mark t j = .owed a)
  signalled : ∀ t j, m.2.2.mark t j = .signalled → 0 < m.2.2.signals

/-- Actor `a` has signalled for whatever it has made reclaimable, except where somebody reserves
and commits. -/
def Clear (a : Actor) (m : Watched P n) : Prop :=
  ∀ t j, m.2.2.mark t j = .owed a → m.2.2.busy t = true

/-- What holds in every run under observation. Who is idle is awake and has signalled. -/
def rules (P : Platform) (L : RingLayout) : Rules (watchedRing P L) where
  inv := Inv
  guar := Guar
  ok := Prompt
  rest a m := m.1.asleep a = none ∧ Clear a m

/-! ## what the notes become -/

section

variable {b : Actor} {m m' : Watched P n}

theorem Guar.signals (h : Guar b m m') :
    m'.2.2.signals = if bumps m.1 m'.1 then m.2.2.signals + 1 else m.2.2.signals :=
  congrArg Notes.signals h.noted

/-- What becomes of the note on a slot. -/
theorem Guar.mark (h : Guar b m m') (t : Nat) (j : Fin n) : m'.2.2.mark t j =
    if takesLock b m.1 m'.1 t then .same
    else if frees m.1 m'.1 j then .owed b
    else if bumps m.1 m'.1 ∧ m.2.2.mark t j = .owed b then .signalled
    else m.2.2.mark t j :=
  congrFun (congrFun (congrArg Notes.mark h.noted) t) j

theorem Guar.busy (h : Guar b m m') (t : Nat) : m'.2.2.busy t =
    (!takesLock b m.1 m'.1 t && (m.2.2.busy t || decide (m'.2.1.begun ≠ m.2.1.begun) ||
      decide (m'.2.1.published.length ≠ m.2.1.published.length))) :=
  congrFun (congrArg Notes.busy h.noted) t

/-- When a writer fell asleep. -/
theorem Guar.slept (h : Guar b m m') (t : Nat) :
    m'.2.2.slept t = if fallsAsleep b m.1 m'.1 t then m.2.2.signals else m.2.2.slept t :=
  congrFun (congrArg Notes.slept h.noted) t

/-- Only a writer itself takes the lock for its search. -/
theorem takesLock_of_ne {s s' : State P n} {t : Nat} (h : b ≠ .writer t) :
    takesLock b s s' t = false := by
  simp [takesLock, h]

/-- What nobody has made reclaimable so far had not been made so before. -/
theorem Guar.mark_same (h : Guar b m m') {t : Nat} (ht : takesLock b m.1 m'.1 t = false)
    {j : Fin n} (hj : m'.2.2.mark t j = .same) : m.2.2.mark t j = .same ∧
      (Reclaimable (m'.1.ring.slots j) → Reclaimable (m.1.ring.slots j)) := by
  rw [h.mark, ht] at hj
  by_cases hf : frees m.1 m'.1 j = true
  · simp [hf] at hj
  · refine ⟨?_, fun hr => ?_⟩
    · by_cases hb : bumps m.1 m'.1 = true ∧ m.2.2.mark t j = .owed b
      · simp [hf, hb] at hj
      · simpa [hf, hb] using hj
    · by_contra hn
      exact hf (by simp [frees, hn, hr])

/-- What another actor owes, it owed before, and the notes do not go back. -/
theorem Guar.mark_owed (h : Guar b m m') {a : Actor} (ha : a ≠ b) {t : Nat} {j : Fin n}
    (hj : m'.2.2.mark t j = .owed a) :
    m.2.2.mark t j = .owed a ∧ (m.2.2.busy t = true → m'.2.2.busy t = true) := by
  rw [h.mark] at hj
  by_cases ht : takesLock b m.1 m'.1 t = true
  · simp [ht] at hj
  by_cases hf : frees m.1 m'.1 j = true
  · simp [ht, hf, Ne.symm ha] at hj
  by_cases hb : bumps m.1 m'.1 = true ∧ m.2.2.mark t j = .owed b
  · simp [ht, hf, hb] at hj
  · refine ⟨by simpa [ht, hf, hb] using hj, fun hbusy => ?_⟩
    rw [h.busy]
    simp [ht, hbusy]

/-! ## the invariant -/

/-- The word counts the signals. -/
theorem Guar.inv_word (hg : Guar b m m') (h : Inv m) :
    m'.1.ring.reclaimFutex = UInt32.ofNat m'.2.2.signals := by
  rw [hg.signals]
  rcases hg.reclaim with hw | hw
  · simpa [bumps, hw] using h.word
  · have hne : bumps m.1 m'.1 = true := by
      simp [bumps, hw]
    rw [if_pos hne, hw, h.word]
    simp

/-- A slot that has been signalled for comes with a signal. -/
theorem Guar.inv_signalled (hg : Guar b m m') (h : Inv m) {t : Nat} {j : Fin n}
    (hj : m'.2.2.mark t j = .signalled) : 0 < m'.2.2.signals := by
  rw [hg.signals]
  rw [hg.mark] at hj
  by_cases hb : bumps m.1 m'.1 = true
  · rw [if_pos hb]
    omega
  · rw [if_neg hb]
    by_cases ht : takesLock b m.1 m'.1 t = true
    · simp [ht] at hj
    by_cases hf : frees m.1 m'.1 j = true
    · simp [ht, hf] at hj
    · exact h.signalled t j (by simpa [ht, hf, hb] using hj)

/-- A step of somebody else, while a producer sleeps. -/
theorem Guar.inv_asleep (hg : Guar b m m') (h : Inv m) {t : Nat} {v : UInt32} (hb : b ≠ .writer t)
    (ht : m.1.asleep (.writer t) = some (.reclaim, v)) :
    v = UInt32.ofNat (m'.2.2.slept t) ∧ m'.2.2.slept t ≤ m'.2.2.signals ∧
      (m'.2.2.signals = m'.2.2.slept t → m'.2.2.busy t = false →
        ∀ j, Reclaimable (m'.1.ring.slots j) → ∃ a, m'.2.2.mark t j = .owed a) := by
  obtain ⟨hv, hle, hready⟩ := h.asleep t v ht
  have hslept : m'.2.2.slept t = m.2.2.slept t := by
    simp [hg.slept, fallsAsleep, hb]
  have hmono : m.2.2.signals ≤ m'.2.2.signals := by
    rw [hg.signals]
    split <;> omega
  rw [hslept]
  refine ⟨hv, hle.trans hmono, fun hs hbusy j hj => ?_⟩
  have hbump : bumps m.1 m'.1 = false := by
    by_contra hn
    have := hg.signals
    rw [if_pos (by simpa using hn)] at this
    omega
  have hbusy' : m.2.2.busy t = false := by
    rw [hg.busy, takesLock_of_ne hb] at hbusy
    simp only [Bool.not_false, Bool.true_and, Bool.or_eq_false_iff] at hbusy
    exact hbusy.1.1
  rw [hg.mark, takesLock_of_ne hb]
  by_cases hf : frees m.1 m'.1 j = true
  · exact ⟨b, by simp [hf]⟩
  · have hj' : Reclaimable (m.1.ring.slots j) := by
      by_contra hn
      exact hf (by simp [frees, hn, hj])
    obtain ⟨a, ha⟩ := hready (by omega) hbusy' j hj'
    exact ⟨a, by simp [hf, hbump, ha]⟩

/-- A producer falls asleep. -/
theorem FallsAsleep.inv_asleep {t : Nat} (hs : FallsAsleep (.writer t) m m')
    (hg : Guar (.writer t) m m') (h : Inv m) (hok : Prompt m m') {v : UInt32}
    (ht : m'.1.asleep (.writer t) = some (.reclaim, v)) :
    v = UInt32.ofNat (m'.2.2.slept t) ∧ m'.2.2.slept t ≤ m'.2.2.signals ∧
      (m'.2.2.signals = m'.2.2.slept t → m'.2.2.busy t = false →
        ∀ j, Reclaimable (m'.1.ring.slots j) → ∃ a, m'.2.2.mark t j = .owed a) := by
  have hbump : bumps m.1 m'.1 = false := by simp [bumps, hs.ring]
  have hlock : takesLock (.writer t) m.1 m'.1 t = false := by simp [takesLock, hs.lock]
  have hsignals : m'.2.2.signals = m.2.2.signals := by simp [hg.signals, hbump]
  have hslept : m'.2.2.slept t = m.2.2.signals := by
    simp [hg.slept, fallsAsleep, hs.awake, ht]
  obtain ⟨w, hw⟩ := hs.word
  obtain ⟨rfl, rfl⟩ := Prod.mk.inj (Option.some.inj (ht.symm.trans hw))
  refine ⟨?_, ?_, fun _ hbusy j hj => ?_⟩
  · rw [hslept]
    exact h.word
  · rw [hslept, hsignals]
  · have hbusy' : m.2.2.busy t = false := by
      rw [hg.busy, hlock] at hbusy
      simpa [hs.hist] using hbusy
    have hj' : Reclaimable (m.1.ring.slots j) := by rwa [hs.ring] at hj
    have hsame := hs.searched t rfl j hj'
    have hsignalled := hok t hs.awake ⟨_, ht⟩ hbusy' j hj'
    have hmark : m'.2.2.mark t j = m.2.2.mark t j := by
      simp [hg.mark, hlock, hbump, frees, hs.ring]
    rw [hmark]
    cases hm : m.2.2.mark t j with
    | same => exact absurd hm hsame
    | owed a => exact ⟨a, rfl⟩
    | signalled => exact absurd hm hsignalled

/-- An action keeps the invariant. -/
theorem Guar.inv (hg : Guar b m m') (h : Inv m) (hok : Prompt m m') : Inv m' where
  word := hg.inv_word h
  asleep t v ht := by
    rcases hg.asleep (.writer t) with hsame | hnone | ⟨rfl, hs⟩
    · rw [hsame] at ht
      refine hg.inv_asleep h ?_ ht
      rintro rfl
      rcases hg.awake with ha | ha
      · rw [ha] at ht
        cases ht
      · rw [hsame, ht] at ha
        cases ha
    · rw [hnone] at ht
      cases ht
    · exact hs.inv_asleep hg h hok ht
  signalled _ _ hj := hg.inv_signalled h hj

end

end TenzorBus.Wakeup
