import TenzorBus.Shift.Relation

/-!
# The registry does not look at numbers

The parts of the operations that are the same on a shifted ring: the lock, the futexes, the
liveness sweep, the reader masks.
-/

namespace TenzorBus

open Conc

variable {P : Platform} {n : Nat} {k : UInt64} {w : Known n} {s s' : State P n}

/-! ## what a store keeps -/

/-- A change of the state that leaves the numbers alone, commits nothing and does not touch what
the processes hold. -/
structure Plain (k : UInt64) (f : State P n → State P n) : Prop where
  shift : ∀ w s, (f s).shift k w = f (s.shift k w)
  committed : ∀ s i, ((f s).ring.slots i).state = .committed → (s.ring.slots i).state = .committed
  active : ∀ s i, ((f s).ring.entries i).state = .active → (s.ring.entries i).state = .active
  held : ∀ s, (f s).consumer = s.consumer ∧ (f s).leases = s.leases ∧ (f s).writer = s.writer

/-- Such a change on both sides. -/
theorem Plain.stored {f : State P n → State P n} (hf : Plain k f) (h : Shifted k w s s') :
    Shifted k w (f s) (f s') := by
  obtain ⟨hconsumer, hleases, hwriter⟩ := hf.held s
  constructor
  · rw [h.eq]
    exact (hf.shift w s).symm
  · exact fun i hi => h.committed i (hf.committed s i hi)
  · exact fun i hi => h.active i (hf.active s i hi)
  · rw [hleases]
    exact h.leases
  · rw [hwriter]
    exact h.writers
  · rw [hconsumer]
    exact h.handles

/-- A change of one slot, before the shift and after it. -/
theorem setSlot_shift {g g' : Slot → Slot} {i : Fin n}
    (hg : ∀ t, (g t).shift k (decide (i ∈ w.slots)) = g' (t.shift k (decide (i ∈ w.slots))))
    (r : Ring n) : (r.setSlot i g).shift k w = (r.shift k w).setSlot i g' := by
  unfold Ring.shift Ring.setSlot
  congr 1
  funext j
  by_cases hj : j = i
  · subst hj
    simp [hg]
  · simp [hj]

/-- A change of one registry entry, before the shift and after it. -/
theorem setEntry_shift {g g' : ConsumerEntry → ConsumerEntry} {i : Fin 64}
    (hg : ∀ e, (g e).shift k (decide (i ∈ w.entries)) = g' (e.shift k (decide (i ∈ w.entries))))
    (r : Ring n) : (r.setEntry i g).shift k w = (r.shift k w).setEntry i g' := by
  unfold Ring.shift Ring.setEntry
  congr 1
  funext j
  by_cases hj : j = i
  · subst hj
    simp [hg]
  · simp [hj]

/-- A store to a slot that does not touch its number. -/
theorem plain_setSlot (i : Fin n) {g : Slot → Slot} (hg : ∀ b t, (g t).shift k b = g (t.shift k b))
    (hstate : ∀ t, (g t).state = .committed → t.state = .committed) :
    Plain k fun s : State P n => { s with ring := s.ring.setSlot i g } where
  shift w s := by
    have hring : (s.ring.setSlot i g).shift k w = (s.ring.shift k w).setSlot i g :=
      setSlot_shift (fun t => hg _ t) s.ring
    simp only [State.shift, hring]
  committed s j hj := by
    by_cases hji : j = i
    · subst hji
      exact hstate _ (by simpa [Ring.setSlot] using hj)
    · simpa [Ring.setSlot, hji] using hj
  active _ _ h := h
  held _ := ⟨rfl, rfl, rfl⟩

/-- A store to a registry entry that does not touch its number. -/
theorem plain_setEntry (i : Fin 64) {g : ConsumerEntry → ConsumerEntry}
    (hg : ∀ b e, (g e).shift k b = g (e.shift k b))
    (hstate : ∀ e, (g e).state = .active → e.state = .active) :
    Plain k fun s : State P n => { s with ring := s.ring.setEntry i g } where
  shift w s := by
    have hring : (s.ring.setEntry i g).shift k w = (s.ring.shift k w).setEntry i g :=
      setEntry_shift (fun e => hg _ e) s.ring
    simp only [State.shift, hring]
  committed _ _ h := h
  active s j hj := by
    by_cases hji : j = i
    · subst hji
      exact hstate _ (by simpa [Ring.setEntry] using hj)
    · simpa [Ring.setEntry, hji] using hj
  held _ := ⟨rfl, rfl, rfl⟩

/-! ## loads and stores -/

/-- A load of what is not shifted. -/
theorem unmoved_load {β : Type} {f : Ring n → β} (hf : ∀ w r, f (r.shift k w) = f r) :
    Unmoved (Shifted k) (load f : RingM P n β) :=
  .read fun w s s' h => by
    rw [h.eq]
    exact hf w s.ring

/-- A question to the system, or a look at what is not shifted. -/
theorem unmoved_os {β : Type} {f : State P n → β} (hf : ∀ w s, f (s.shift k w) = f s) :
    Unmoved (Shifted k) (Prog.read f : RingM P n β) :=
  .read fun w s s' h => by
    rw [h.eq]
    exact hf w s

/-- The same store on both sides. -/
theorem Plain.unmoved {f : State P n → State P n} (hf : Plain k f)
    (aux : State P n → Ghost n → Ghost n) :
    Unmoved (Shifted k) (Prog.modifyWith f aux : RingM P n Unit) :=
  .store fun _ _ _ h => hf.stored h

/-- A store that only changes counters and futex words. -/
theorem unmoved_counter {f : State P n → State P n} {aux : State P n → Ghost n → Ghost n}
    (hshift : ∀ w s, (f s).shift k w = f (s.shift k w) := by exact fun _ _ => rfl)
    (hwords : ∀ s, (f s).ring.slots = s.ring.slots ∧ (f s).ring.entries = s.ring.entries := by
      exact fun _ => ⟨rfl, rfl⟩)
    (hheld : ∀ s, (f s).consumer = s.consumer ∧ (f s).leases = s.leases ∧
      (f s).writer = s.writer := by exact fun _ => ⟨rfl, rfl, rfl⟩) :
    Unmoved (Shifted k) (Prog.modifyWith f aux : RingM P n Unit) :=
  Plain.unmoved ⟨hshift, fun s i h => by rwa [(hwords s).1] at h,
    fun s i h => by rwa [(hwords s).2] at h, hheld⟩ aux

theorem unmoved_storeSlotWith (i : Fin n) (g : Slot → Slot)
    (aux : State P n → Ghost n → Ghost n) (hg : ∀ b t, (g t).shift k b = g (t.shift k b))
    (hstate : ∀ t, (g t).state = .committed → t.state = .committed) :
    Unmoved (Shifted k) (storeSlotWith i g aux : RingM P n Unit) :=
  (plain_setSlot i hg hstate).unmoved aux

theorem unmoved_storeSlot (i : Fin n) (g : Slot → Slot)
    (hg : ∀ b t, (g t).shift k b = g (t.shift k b))
    (hstate : ∀ t, (g t).state = .committed → t.state = .committed) :
    Unmoved (Shifted k) (storeSlot i g : RingM P n Unit) :=
  (plain_setSlot i hg hstate).unmoved _

theorem unmoved_storeReaders (a : Actor) (i : Fin n) (count : Nat) :
    Unmoved (Shifted k) (storeReaders a i count : RingM P n Unit) :=
  unmoved_storeSlotWith i _ _ (fun _ _ => rfl) fun _ h => h

theorem unmoved_storeEntry (i : Fin 64) (g : ConsumerEntry → ConsumerEntry)
    (hg : ∀ b e, (g e).shift k b = g (e.shift k b))
    (hstate : ∀ e, (g e).state = .active → e.state = .active) :
    Unmoved (Shifted k) (storeEntry i g : RingM P n Unit) :=
  (plain_setEntry i hg hstate).unmoved _

/-- What the history takes note of is not looked at. -/
theorem unmoved_record (aux : State P n → Ghost n → Ghost n) :
    Unmoved (Shifted k) (Prog.record aux : RingM P n Unit) :=
  .store fun _ _ _ h => h

/-- The liveness check is asked about the same words. -/
theorem unmoved_pidAlive (subject : Subject n) (pid token : UInt32) :
    Unmoved (Shifted k) (pidAliveWithToken subject pid token : RingM P n Bool) :=
  .atomic fun w s s' h => .moved w le_rfl h (by rw [h.eq]; rfl)

/-- The lock is free on both sides or on neither. -/
theorem unmoved_lockRegistry (a : Actor) :
    Unmoved (Shifted k) (lockRegistry a : RingM P n Unit) :=
  .atomic fun w s s' h => by
    have hfree : s'.lockFree = s.lockFree := by
      rw [h.eq]
      rfl
    by_cases hs : s.lockFree = true
    · rw [if_pos hs, if_pos (hfree.trans hs)]
      refine .moved w le_rfl ?_ rfl
      exact ⟨by rw [h.eq]; rfl, h.committed, h.active, h.leases, h.writers, h.handles⟩
    · rw [if_neg hs, if_neg (hfree ▸ hs)]
      exact .blocked

theorem unmoved_unlockRegistry : Unmoved (Shifted k) (unlockRegistry : RingM P n Unit) :=
  .store fun _ _ _ h => ⟨by rw [h.eq]; rfl, h.committed, h.active, h.leases, h.writers, h.handles⟩

/-- Who sleeps does not depend on the numbers. -/
theorem unmoved_asleep {f : State P n → Actor → Option (FutexWord × UInt32)}
    (hf : ∀ w s, f (s.shift k w) = f s) :
    Unmoved (Shifted k) (Prog.modify (fun s => { s with asleep := f s }) : RingM P n Unit) :=
  .store fun w s s' h => by
    refine ⟨?_, h.committed, h.active, h.leases, h.writers, h.handles⟩
    rw [h.eq, hf]
    rfl

theorem unmoved_signal (x : FutexWord) : Unmoved (Shifted k) (signal x : RingM P n Unit) := by
  refine .bind (unmoved_counter (fun _ _ => ?_) (fun _ => ?_) fun _ => ⟨rfl, rfl, rfl⟩) fun _ =>
    unmoved_asleep fun _ _ => rfl
  · cases x <;> rfl
  · cases x <;> exact ⟨rfl, rfl⟩

theorem unmoved_futexWait (a : Actor) (x : FutexWord) (expected : UInt32) :
    Unmoved (Shifted k) (futexWait a x expected : RingM P n Unit) := by
  refine .bind (.store fun w s s' h => ?_) fun _ => unmoved_asleep fun _ _ => rfl
  have hword : s'.ring.futexWord x = s.ring.futexWord x := by
    rw [h.eq]
    cases x <;> rfl
  rw [hword]
  split
  · exact ⟨by rw [h.eq]; rfl, h.committed, h.active, h.leases, h.writers, h.handles⟩
  · exact h

/-! ## the registry -/

theorem unmoved_activeMask : Unmoved (Shifted k) (Ring.activeMask : RingM P n UInt64) := by
  refine .foldlM (fun mask i => .bind (unmoved_load fun _ _ => rfl) fun state => ?_) _ _
  split <;> exact .ret _

/-- A bit is taken from the same masks. -/
theorem unmoved_dropConsumerBit (a : Actor) (index : Fin 64) :
    Unmoved (Shifted k) (Ring.dropConsumerBit a index : RingM P n Bool) := by
  refine .foldlM (fun freed i => ?_) _ _
  refine .bind (.atomic fun w s s' h => ?_) fun previous => ?_
  · have hplain : Plain k fun s : State P n => { s with ring := s.ring.setSlot i fun t =>
        { t with readersMask := t.readersMask &&& ~~~bit index } } :=
      plain_setSlot i (fun _ _ => rfl) fun _ h => h
    refine .moved w le_rfl (hplain.stored h) ?_
    rw [h.eq]
    rfl
  · split
    · exact .bind (unmoved_storeReaders _ _ _) fun _ => .ret _
    · exact .ret _

/-- The entry becomes free, and the count goes down. -/
theorem unmoved_freeEntry (a : Actor) (index : Fin 64) :
    Unmoved (Shifted k) (Ring.freeEntry a index : RingM P n Unit) := by
  refine .bind (Plain.unmoved (f := fun s => { s with ring := s.ring.setEntry index fun e =>
    { e with state := .free } }) (plain_setEntry index (fun _ _ => rfl) fun _ h => by cases h) _)
    fun _ => ?_
  refine .bind (unmoved_load fun _ _ => rfl) fun previous => ?_
  exact unmoved_counter

/-- A sweep of a registry entry looks at state, pid and bits. -/
theorem unmoved_reapEntry (a : Actor) (freed : Bool) (i : Fin 64) :
    Unmoved (Shifted k) (Ring.reapEntry a freed i : RingM P n Bool) := by
  refine .bind (unmoved_load fun _ _ => rfl) fun state => ?_
  split
  · exact .ret _
  refine .bind (unmoved_load fun _ _ => rfl) fun pid => ?_
  split
  · exact .ret _
  refine .bind (unmoved_pidAlive _ _ _) fun alive => ?_
  split
  · exact .ret _
  refine .bind (unmoved_dropConsumerBit a i) fun dropped => ?_
  refine .bind (unmoved_storeEntry i _ (fun _ _ => rfl) fun _ h => h) fun _ => ?_
  refine .bind (unmoved_freeEntry a i) fun _ => ?_
  exact .bind unmoved_counter fun _ => .bind unmoved_counter fun _ => .ret _

/-- A sweep of a slot looks at state, pid and token. -/
theorem unmoved_reapSlot (a : Actor) (freed : Bool) (i : Fin n) :
    Unmoved (Shifted k) (Ring.reapSlot a freed i : RingM P n Bool) := by
  refine .bind (unmoved_load fun _ _ => rfl) fun state => ?_
  split
  · exact .ret _
  refine .bind (unmoved_load fun _ _ => rfl) fun pid => ?_
  refine .bind (unmoved_load fun _ _ => rfl) fun token => ?_
  split
  · exact .ret _
  refine .bind (unmoved_pidAlive _ _ _) fun alive => ?_
  split
  · exact .ret _
  refine .bind (unmoved_storeSlotWith i _ _ (fun _ _ => rfl) fun _ h => h) fun _ => ?_
  refine .bind (unmoved_storeReaders _ _ _) fun _ => ?_
  refine .bind (unmoved_storeSlotWith i _ _ (fun _ _ => rfl) fun _ h => ?_) fun _ => .ret _
  cases h

/-- A whole sweep. -/
theorem unmoved_reapDead (a : Actor) : Unmoved (Shifted k) (Ring.reapDead a : RingM P n Unit) := by
  refine .bind (unmoved_record _) fun _ => ?_
  refine .bind (.foldlM (fun freed i => unmoved_reapEntry a freed i) _ _) fun freed => ?_
  refine .bind (.foldlM (fun freed i => unmoved_reapSlot a freed i) _ _) fun freed => ?_
  refine .bind (unmoved_record _) fun _ => ?_
  split
  · exact unmoved_signal _
  · exact .ret _

/-- The same entry is chosen. -/
theorem unmoved_firstFree (l : List (Fin 64)) :
    Unmoved (Shifted k) (Ring.firstFree l : RingM P n _) := by
  induction l with
  | nil => exact .ret _
  | cons i rest ih =>
    refine .bind (unmoved_load fun _ _ => rfl) fun state => ?_
    split
    · exact .ret _
    · exact ih

theorem unmoved_sweep (a : Actor) : Unmoved (Shifted k) (Ring.sweep a : RingM P n Unit) :=
  .bind (unmoved_lockRegistry a) fun _ => .bind (unmoved_reapDead a) fun _ => unmoved_unlockRegistry

end TenzorBus
