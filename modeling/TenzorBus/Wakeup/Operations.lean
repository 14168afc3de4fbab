import TenzorBus.Wakeup.Rules

/-!
# Whoever frees a slot signals

Outlines of the parts that the operations of the ring share, and of those of the registry: an actor
that has made a slot reclaimable bumps `G_RECLAIM_FUTEX` before its operation ends.

* `still_read`, `still_store`, `still_slot`, `still_tryTake` : programs that do nothing of interest
* `Clear.step` : what an action leaves clear
* `signal_clear` : the signal
* `dropConsumerBit_clear`, `reapDead_clear` : slots are given back
* `consumer_clear`, `sweep_clear` : the operations of the registry
-/

namespace TenzorBus.Wakeup

open Conc

variable {P : Platform} {n : Nat} {L : RingLayout} {α : Type}

/-! ## programs that do nothing of interest -/

theorem still_read {f : State P n → α} : (Prog.read f : RingM P n α).Acts Stills :=
  .read Stills.refl

theorem still_store {f : Ring n → Ring n} (hs : ∀ r, (f r).slots = r.slots)
    (hr : ∀ r, (f r).reclaimFutex = r.reclaimFutex) : (store f : RingM P n Unit).Acts Stills :=
  .modifyWith fun s _ =>
    { os := rfl
      lock := rfl
      state := fun j => congrArg (fun slots => (slots j).state) (hs s.ring)
      mask := fun j => congrArg (fun slots => (slots j).readersMask) (hs s.ring)
      reclaim := hr s.ring
      asleep := fun _ => .inl rfl }

theorem still_slot {i : Fin n} {f : Slot → Slot} {aux : State P n → Ghost n → Ghost n}
    (hf : ∀ t, (f t).state = t.state ∧ (f t).readersMask = t.readersMask) :
    (storeSlotWith i f aux).Acts Stills := by
  have hslot : ∀ (s : State P n) (j : Fin n),
      ((s.ring.setSlot i f).slots j).state = (s.ring.slots j).state ∧
        ((s.ring.setSlot i f).slots j).readersMask = (s.ring.slots j).readersMask := by
    intro s j
    by_cases hj : j = i
    · subst hj
      simpa [Ring.setSlot] using hf (s.ring.slots j)
    · simp [Ring.setSlot, hj]
  exact .modifyWith fun s _ =>
    { os := rfl
      lock := rfl
      state := fun j => (hslot s j).1
      mask := fun j => (hslot s j).2
      reclaim := rfl
      asleep := fun _ => .inl rfl }

/-- What a process does to what it holds itself. -/
theorem still_own {f : State P n → State P n} {aux : State P n → Ghost n → Ghost n}
    (hr : ∀ s, (f s).ring = s.ring) (ho : ∀ s, (f s).os = s.os) (hl : ∀ s, (f s).lock = s.lock)
    (ha : ∀ s, (f s).asleep = s.asleep) : (Prog.modifyWith f aux).Acts Stills :=
  .modifyWith fun s _ =>
    { os := ho s
      lock := hl s
      state := fun j => congrArg (fun r : Ring n => (r.slots j).state) (hr s)
      mask := fun j => congrArg (fun r : Ring n => (r.slots j).readersMask) (hr s)
      reclaim := congrArg Ring.reclaimFutex (hr s)
      asleep := fun b => .inl (congrFun (ha s) b) }

/-- What the history takes note of is not noted here. -/
theorem still_record {aux : State P n → Ghost n → Ghost n} :
    (Prog.record aux : RingM P n Unit).Acts Stills :=
  still_own (fun _ => rfl) (fun _ => rfl) (fun _ => rfl) fun _ => rfl

/-- The number of readers is not the mask. -/
theorem still_storeReaders (a : Actor) (i : Fin n) (count : Nat) :
    (storeReaders a i count : RingM P n Unit).Acts Stills :=
  still_slot fun _ => ⟨rfl, rfl⟩

theorem still_storeEntry (i : Fin 64) (f : ConsumerEntry → ConsumerEntry) :
    (storeEntry i f : RingM P n Unit).Acts Stills :=
  still_store (fun _ => rfl) fun _ => rfl

/-- Whoever wakes up the sleepers has signalled before. -/
theorem still_wakeAll (w : FutexWord) : (wakeAll w : RingM P n Unit).Acts Stills :=
  .modifyWith fun s _ =>
    { os := rfl
      lock := rfl
      state := fun _ => rfl
      mask := fun _ => rfl
      reclaim := rfl
      asleep := fun b => by
        cases h : s.asleep b with
        | none => exact .inl (by simp [h])
        | some x =>
          by_cases hx : x.1 = w
          · exact .inr (by simp [h, hx])
          · exact .inl (by simp [h, hx]) }

/-- A signal to the consumers. -/
theorem still_signal : (signal .publish : RingM P n Unit).Acts Stills := by
  refine .bind (still_store (fun r => ?_) fun r => ?_) fun _ => still_wakeAll _
  · rfl
  · rfl

theorem still_pidAlive (x : Subject n) (pid token : UInt32) :
    (pidAliveWithToken x pid token : RingM P n Bool).Acts Stills :=
  .act fun s _ b s' hs => by
    cases hs
    exact Still.refl s

theorem still_activeMask : (Ring.activeMask : RingM P n UInt64).Acts Stills :=
  .of_reads Ring.activeMask_reads Stills.refl

theorem still_storeConsumers (count : UInt32) :
    (Ring.storeConsumers count : RingM P n Unit).Acts Stills :=
  .modifyWith fun s _ => { Still.refl s with }

/-- A registry entry becomes free when its bits are gone. -/
theorem still_freeEntry (a : Actor) (i : Fin 64) :
    (Ring.freeEntry a i : RingM P n Unit).Acts Stills :=
  .bind (.modifyWith fun s _ => { Still.refl s with }) fun _ =>
    .bind still_read fun _ => still_storeConsumers _

theorem still_firstFree (xs : List (Fin 64)) :
    (Ring.firstFree xs : RingM P n (Option (Fin 64))).Acts Stills :=
  .of_reads (Ring.firstFree_reads xs) Stills.refl

theorem still_writeByte (slot : Fin n) (off : Nat) (b : UInt8) :
    (Producer.writeByte slot off b : RingM P n Unit).Acts Stills :=
  still_slot fun _ => ⟨rfl, rfl⟩

/-- The payload is written into a slot that is taken. -/
theorem still_copyPayload (slot : Fin n) (data : List UInt8) :
    (Producer.copyPayload slot data : RingM P n Unit).Acts Stills :=
  .forM (fun _ => still_writeByte _ _ _) _

theorem still_timestampOrNow (timestampNs : Option UInt64) :
    (Producer.timestampOrNow timestampNs : RingM P n UInt64).Acts Stills :=
  .of_reads (Producer.timestampOrNow_reads timestampNs) Stills.refl

theorem still_writeDim (slot : Fin n) (shape strides : Fin maxNdim → UInt32) (d : Fin maxNdim) :
    (Producer.writeDim slot shape strides d : RingM P n Unit).Acts Stills := by
  refine .bind (still_slot fun t => ?_) fun _ => still_slot fun t => ?_
  · exact ⟨rfl, rfl⟩
  · exact ⟨rfl, rfl⟩

theorem still_heartbeat (self : Consumer) : (self.heartbeat : RingM P n Unit).Acts Stills :=
  .bind still_read fun _ => still_storeEntry _ _

/-- A consumer that looks for a publication changes nothing. -/
theorem still_tryTake (cap c : Nat) (self : Consumer) :
    (Consumer.tryTake cap c self : RingM P n _).Acts Stills :=
  (Consumer.tryTake_notes c self cap).mono fun m m' h => by
    rw [Stills, show m'.1 = m.1 from h]
    exact Still.refl m.1

/-! ## what an action leaves clear -/

section

variable {a : Actor} {s s' : State P L.slotCount} {g g' : Ghost L.slotCount}
  {w : Notes L.slotCount}

/-- Nobody takes a lock that stays as it is. -/
theorem takesLock_of_lock (h : s'.lock = s.lock) (t : Nat) : takesLock a s s' t = false := by
  simp [takesLock, h]

/-- A writer is noted as busy through what is begun and what is committed. -/
theorem observe_busy (h : s'.lock = s.lock) (t : Nat) : (observe a (s, g) (s', g') w).busy t =
    (w.busy t || decide (g'.begun ≠ g.begun) ||
      decide (g'.published.length ≠ g.published.length)) := by
  simp [observe, takesLock_of_lock h]

/-- An actor owes a signal only for the slots that it frees. -/
theorem Clear.step (h : Clear a (s, g, w))
    (hf : ∀ j, frees s s' j = true → Busy (s', g', observe a (s, g) (s', g') w)) :
    Clear a (s', g', observe a (s, g) (s', g') w) := by
  intro t j hj
  by_cases htake : takesLock a s s' t = true
  · simp [observe, htake] at hj
  by_cases hfree : frees s s' j = true
  · exact hf j hfree t
  by_cases hb : bumps s s' = true ∧ w.mark t j = .owed a
  · simp [observe, htake, hfree, hb] at hj
  · have hmark : w.mark t j = .owed a := by simpa [observe, htake, hfree, hb] using hj
    simp [observe, htake, show w.busy t = true from h t j hmark]

/-- A change of one slot. -/
theorem frees_setSlot {f : Slot → Slot} {i j : Fin L.slotCount}
    (hr : s'.ring = s.ring.setSlot i f) (h : frees s s' j = true) :
    ¬Reclaimable (s.ring.slots i) ∧ Reclaimable (f (s.ring.slots i)) := by
  by_cases hj : j = i
  · subst hj
    simpa [frees, hr, Ring.setSlot] using h
  · simp [frees, hr, Ring.setSlot, hj] at h

/-- No slot becomes reclaimable where none changes. -/
theorem not_frees (h : s'.ring.slots = s.ring.slots) (j : Fin L.slotCount) :
    frees s s' j = false := by
  simp [frees, h]

/-- A bit that is cleared makes a slot reclaimable only as the last one. -/
theorem last_bit {t : Slot} {i : Fin 64} (h : ¬Reclaimable t)
    (h' : Reclaimable { t with readersMask := t.readersMask &&& ~~~bit i }) :
    t.readersMask &&& bit i ≠ 0 ∧ t.readersMask &&& ~~~bit i = 0 := by
  unfold Reclaimable at h h'
  push Not at h
  obtain ⟨hstate, hmask⟩ := h'.resolve_left h.1
  refine ⟨fun hb => h.2 hstate ?_, hmask⟩
  rw [← readers_eq_empty, readers_clear] at hmask
  rw [← readers_eq_empty]
  rwa [Finset.erase_eq_of_notMem (and_bit_eq_zero.mp hb)] at hmask

end

/-! ## the lock and the signal -/

variable {a : Actor}

/-- The lock is taken: for a producer the notes begin again. -/
theorem lockRegistry_clear :
    Keeping a (lockRegistry a : RingM P L.slotCount Unit) (Clear a)
      fun _ m => Locked a m ∧ Clear a m := by
  refine .act (fun _ => kept_locked.and kept_clear) fun s g w _ hm x s' hs => ?_
  obtain ⟨hfree, hs⟩ := Option.ite_none_right_eq_some.mp hs
  cases hs
  refine ⟨{ (Still.refl s).does (a := a) with lock := .inr (.inl ⟨hfree, rfl⟩) }, rfl, ?_⟩
  exact hm.step fun j hj => by simp [not_frees] at hj

/-- What is given up with the lock is only the lock. -/
theorem unlockRegistry_keeps {Θ : Watched P L.slotCount → Prop} (hΘ : Kept a Θ)
    (hlock : ∀ m, Θ m → Θ ({ m.1 with lock := none }, m.2)) :
    Keeping a (unlockRegistry : RingM P L.slotCount Unit) (fun m => Locked a m ∧ Θ m)
      fun _ => Θ := by
  refine .store hΘ fun s g w _ hm => ?_
  refine ⟨{ (Still.refl s).does (a := a) with lock := .inr (.inr ⟨hm.1, rfl⟩) }, ?_⟩
  have hnotes : observe a (s, g) ({ s with lock := none }, g) w = w := by
    have := observe_self a (s, g) w
    simpa [observe, takesLock, frees, bumps, fallsAsleep] using this
  rw [hnotes]
  exact hlock _ hm.2

/-- A signal settles whatever was owed. -/
theorem signal_clear {φ : Prop} :
    Keeping a (signal .reclaim : RingM P L.slotCount Unit) (fun m => φ → Locked a m)
      fun _ m => (φ → Locked a m) ∧ Clear a m := by
  have hkept : Kept a fun m : Watched P L.slotCount => (φ → Locked a m) ∧ Clear a m :=
    kept_locked.imp.and kept_clear
  refine .bind (.store hkept fun s g w _ hm => ⟨?_, fun hφ => hm hφ, fun t j hj => ?_⟩) fun _ =>
    .still (still_wakeAll _) hkept
  · exact { (Still.refl s).does (a := a) with reclaim := .inr rfl }
  · by_cases hmark : w.mark t j = .owed a
    · simp [observe, takesLock, frees, bumps, hmark] at hj
    · simp [observe, takesLock, frees, bumps, hmark] at hj

/-! ## the registry -/

/-- A bit is taken from a mask. Where it was the last one, the answer says so. -/
theorem dropBitAt_clear {φ : Prop} (index : Fin 64) (freed : Bool) (j : Fin L.slotCount) :
    Keeping a (Ring.dropBitAt a index freed j : RingM P L.slotCount Bool)
      (fun m => Locked a m ∧ (φ → freed = false → Clear a m))
      fun freed m => Locked a m ∧ (φ → freed = false → Clear a m) := by
  have hkept : ∀ freed : Bool, Kept a fun m : Watched P L.slotCount =>
      Locked a m ∧ (φ → freed = false → Clear a m) :=
    fun freed => kept_locked.and kept_clear.imp.imp
  -- the answer says whether this was the last bit
  refine .bind (Ψ := fun previous m => Locked a m ∧ (φ →
    (freed || (previous &&& bit index ≠ 0 && previous &&& ~~~bit index == 0)) = false →
      Clear a m)) (.act (fun _ => kept_locked.and kept_clear.imp.imp) ?_) fun previous => ?_
  · intro s g w _ hm x s' hs
    cases hs
    refine ⟨{ (Still.refl s).does (a := a) with state := fun i => .inl ?_ }, hm.1, fun hφ hno => ?_⟩
    · by_cases hi : i = j
      · subst hi
        simp [Ring.setSlot]
      · simp [Ring.setSlot, hi]
    · rw [Bool.or_eq_false_iff] at hno
      refine (hm.2 hφ hno.1).step fun i hi => ?_
      have hslot := frees_setSlot (i := j)
        (f := fun t => { t with readersMask := t.readersMask &&& ~~~bit index }) rfl hi
      obtain ⟨hbit, hlast⟩ := last_bit hslot.1 hslot.2
      simp [hbit, hlast] at hno
  · split
    · next hbit =>
      refine .bind (.still (still_storeReaders _ _ _) (hkept (freed || _))) fun _ => ?_
      refine .ret fun m hm => ?_
      simpa [hbit] using hm
    · next hbit =>
      refine .ret fun m hm => ?_
      simpa [hbit] using hm

/-- A bit is taken from all masks. -/
theorem dropConsumerBit_clear {φ : Prop} (index : Fin 64) :
    Keeping a (Ring.dropConsumerBit a index : RingM P L.slotCount Bool)
      (fun m => Locked a m ∧ (φ → Clear a m))
      fun freed m => Locked a m ∧ (φ → freed = false → Clear a m) :=
  .pre (.foldlM (fun _ freed m => Locked a m ∧ (φ → freed = false → Clear a m))
    (fun _ j freed => dropBitAt_clear index freed j) _ _) fun _ hm => ⟨hm.1, fun hφ _ => hm.2 hφ⟩

/-- The sweep of a registry entry. -/
theorem reapEntry_clear (freed : Bool) (i : Fin 64) :
    Keeping a (Ring.reapEntry a freed i : RingM P L.slotCount Bool)
      (fun m => Locked a m ∧ (freed = false → Clear a m))
      fun freed m => Locked a m ∧ (freed = false → Clear a m) := by
  have hkept : ∀ φ : Prop, Kept a fun m : Watched P L.slotCount => Locked a m ∧ (φ → Clear a m) :=
    fun φ => kept_locked.and kept_clear.imp
  refine .bind (.still still_read (hkept _)) fun state => ?_
  split
  · exact .ret fun m hm => hm
  refine .bind (.still still_read (hkept _)) fun pid => ?_
  split
  · exact .ret fun m hm => hm
  refine .bind (.still (still_pidAlive _ _ _) (hkept _)) fun alive => ?_
  split
  · exact .ret fun m hm => hm
  refine .bind (dropConsumerBit_clear i) fun dropped => ?_
  have hrest : Kept a fun m : Watched P L.slotCount =>
      Locked a m ∧ (freed = false → dropped = false → Clear a m) :=
    kept_locked.and kept_clear.imp.imp
  refine .bind (.still (still_storeEntry _ _) hrest) fun _ => ?_
  refine .bind (.still (still_freeEntry _ _) hrest) fun _ => ?_
  refine .bind (.still (still_store (fun _ => rfl) fun _ => rfl) hrest) fun _ => ?_
  refine .bind (.still (still_store (fun _ => rfl) fun _ => rfl) hrest) fun _ => ?_
  refine .ret fun m hm => ⟨hm.1, fun hno => ?_⟩
  rw [Bool.or_eq_false_iff] at hno
  exact hm.2 hno.1 hno.2

/-- Under the lock a slot may be changed at will. -/
theorem does_setSlot {s : State P L.slotCount} {i : Fin L.slotCount} {f : Slot → Slot}
    (h : s.lock = some a) : Does a s { s with ring := s.ring.setSlot i f } where
  os := rfl
  lock := .inl rfl
  state _ := .inr (.inr h)
  reclaim := .inl rfl
  asleep _ := .inl rfl

/-- A store to a slot under the lock. -/
theorem setSlot_locked {i : Fin L.slotCount} {f : Slot → Slot}
    {aux : State P L.slotCount → Ghost L.slotCount → Ghost L.slotCount} :
    Keeping a (storeSlotWith i f aux) (Locked a) fun _ => Locked a :=
  .store kept_locked fun _ _ _ _ hm => ⟨does_setSlot hm, hm⟩

/-- The sweep of a slot: the answer says whether it has become free. -/
theorem reapSlot_clear (freed : Bool) (j : Fin L.slotCount) :
    Keeping a (Ring.reapSlot a freed j : RingM P L.slotCount Bool)
      (fun m => Locked a m ∧ (freed = false → Clear a m))
      fun freed m => Locked a m ∧ (freed = false → Clear a m) := by
  have hkept : Kept a fun m : Watched P L.slotCount => Locked a m ∧ (freed = false → Clear a m) :=
    kept_locked.and kept_clear.imp
  refine .bind (.still still_read hkept) fun state => ?_
  split
  · exact .ret fun m hm => hm
  refine .bind (.still still_read hkept) fun pid => ?_
  refine .bind (.still still_read hkept) fun token => ?_
  split
  · exact .ret fun m hm => hm
  refine .bind (.still (still_pidAlive _ _ _) hkept) fun alive => ?_
  split
  · exact .ret fun m hm => hm
  refine .bind (.pre setSlot_locked fun m hm => hm.1) fun _ => ?_
  refine .bind (.still (still_storeReaders _ _ _) kept_locked) fun _ => ?_
  exact .bind setSlot_locked fun _ => .ret fun m hm => ⟨hm, nofun⟩

/-- A sweep signals if it has freed anything. -/
theorem reapDead_clear :
    Keeping a (Ring.reapDead a : RingM P L.slotCount Unit) (fun m => Locked a m ∧ Clear a m)
      fun _ m => Locked a m ∧ Clear a m := by
  refine .bind (.still still_record (kept_locked.and kept_clear)) fun _ => ?_
  refine .bind (.pre (.foldlM (fun _ freed m => Locked a m ∧ (freed = false → Clear a m))
    (fun _ i freed => reapEntry_clear freed i) _ _) fun m hm => ⟨hm.1, fun _ => hm.2⟩)
    fun freed => ?_
  refine .bind (.foldlM (fun _ freed m => Locked a m ∧ (freed = false → Clear a m))
    (fun _ j freed => reapSlot_clear freed j) _ _) fun freed => ?_
  refine .bind (.still still_record (kept_locked.and kept_clear.imp)) fun _ => ?_
  split
  · refine .post (.pre (signal_clear (φ := True)) fun m hm _ => hm.1) fun _ m hm => ?_
    exact ⟨hm.1 trivial, hm.2⟩
  · next hno => exact .ret fun m hm => ⟨hm.1, hm.2 (by simpa using hno)⟩

/-- What is left of an operation under the lock, when the lock has been given back. -/
theorem unlockRegistry_clear :
    Keeping a (unlockRegistry : RingM P L.slotCount Unit) (fun m => Locked a m ∧ Clear a m)
      fun _ => Clear a :=
  unlockRegistry_keeps kept_clear fun _ hm => hm

/-- The part of a registration behind the choice of an entry. -/
theorem subscribe_clear (c : Nat) (index : Fin 64) :
    Keeping a (Ring.subscribe a c index : RingM P L.slotCount Unit)
      (fun m => Locked a m ∧ Clear a m) fun _ => Clear a := by
  have hkept : Kept a fun m : Watched P L.slotCount => Locked a m ∧ Clear a m :=
    kept_locked.and kept_clear
  refine .bind (.still still_read hkept) fun next => ?_
  refine .bind (.still (.act fun s _ b s' hs => ?_) hkept) fun generation => ?_
  · cases hs
    exact { Still.refl s with }
  refine .bind (.still (still_storeEntry _ _) hkept) fun _ => ?_
  refine .bind (.still still_read hkept) fun token => ?_
  refine .bind (.still (still_storeEntry _ _) hkept) fun _ => ?_
  refine .bind (.still still_read hkept) fun stamp => ?_
  refine .bind (.still (still_storeEntry _ _) hkept) fun _ => ?_
  refine .bind (.still (still_storeEntry _ _) hkept) fun _ => ?_
  refine .bind (.still (.modifyWith fun s _ => { Still.refl s with }) hkept) fun _ => ?_
  refine .bind (.still still_read hkept) fun count => ?_
  refine .bind (.still (still_storeConsumers _) hkept) fun _ => ?_
  refine .bind (.still (still_store (fun _ => rfl) fun _ => rfl) hkept) fun _ => ?_
  refine .bind unlockRegistry_clear fun _ => .still ?_ kept_clear
  exact still_own (fun _ => rfl) (fun _ => rfl) (fun _ => rfl) fun _ => rfl

theorem consumer_clear (c : Nat) :
    Keeping a (Ring.consumer a c : RingM P L.slotCount (Except Error Unit)) (Clear a)
      fun _ => Clear a := by
  have hkept : Kept a fun m : Watched P L.slotCount => Locked a m ∧ Clear a m :=
    kept_locked.and kept_clear
  refine .bind lockRegistry_clear fun _ => .bind reapDead_clear fun _ => ?_
  refine .bind (.still (still_firstFree _) hkept) fun chosen => ?_
  split
  · refine .bind (.still still_record hkept) fun _ => ?_
    exact .bind unlockRegistry_clear fun _ => .ret fun m hm => hm
  · exact .bind (subscribe_clear c _) fun _ => .ret fun m hm => hm

theorem sweep_clear :
    Keeping a (Ring.sweep a : RingM P L.slotCount Unit) (Clear a) fun _ => Clear a :=
  .bind lockRegistry_clear fun _ => .bind reapDead_clear fun _ => unlockRegistry_clear

end TenzorBus.Wakeup
