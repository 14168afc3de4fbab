import TenzorBus.Wakeup.Operations

/-!
# The search and the sleep

Outlines of the operations of producers and consumers. A producer that finds no slot has seen each
of them taken while it held the lock; only then does it sleep.

* `chooseSlot_searched`, `lockedReserve_searched` : the search
* `futexWait_clear`, `backOff_clear` : the sleep
* `publish_clear`, `reserve_clear`, `commit_clear`, `abort_clear` : producers
* `next_clear`, `release_clear`, `close_clear` : consumers
-/

namespace TenzorBus.Wakeup

open Conc

variable {P : Platform} {L : RingLayout} {α : Type} {a : Actor} {t : Nat}

/-! ## the search -/

/-- A slot that is written cannot be taken. -/
theorem not_reclaimable_of_writing {s : Slot} (h : s.state = .writing) : ¬Reclaimable s := by
  simp [Reclaimable, h]

/-- A committed slot with readers cannot be taken. -/
theorem not_reclaimable_of_mask {s : Slot} (h : s.state = .committed) (hm : s.readersMask ≠ 0) :
    ¬Reclaimable s := by
  simp [Reclaimable, h, hm]

theorem searched_snoc {js : List (Fin L.slotCount)} {j : Fin L.slotCount}
    {m : Watched P L.slotCount} (h : Searched t js m) (hj : Searched t [j] m) :
    Searched t (js ++ [j]) m := by
  intro i hi
  rcases List.mem_append.mp hi with hi | hi
  · exact h i hi
  · exact hj i hi

theorem searched_singleton {j : Fin L.slotCount} {m : Watched P L.slotCount}
    (h : ¬Reclaimable (m.1.ring.slots j)) : Searched t [j] m := by
  intro i hi hr
  rw [List.mem_singleton.mp hi] at hr
  exact absurd hr h

/-- One round: without a candidate the slot has been seen taken. -/
theorem selectSlot_searched (found : Option (Fin L.slotCount) × Option (UInt64 × Fin L.slotCount))
    (done : List (Fin L.slotCount)) (i : Fin L.slotCount) :
    Keeping (.writer t) (Producer.selectSlot found i : RingM P L.slotCount _)
      (fun m => (Locked (.writer t) m ∧ Clear (.writer t) m) ∧
        (found = (none, none) → Searched t done m))
      fun found m => (Locked (.writer t) m ∧ Clear (.writer t) m) ∧
        (found = (none, none) → Searched t (done ++ [i]) m) := by
  have hkept : Kept (.writer t) fun m : Watched P L.slotCount =>
      (Locked (.writer t) m ∧ Clear (.writer t) m) ∧ (found = (none, none) → Searched t done m) :=
    (kept_locked.and kept_clear).and (kept_searched done).imp
  -- what the state says
  refine .bind (Ψ := fun state m => ((Locked (.writer t) m ∧ Clear (.writer t) m) ∧
    (found = (none, none) → Searched t done m)) ∧ (state = SlotState.writing → Searched t [i] m) ∧
      (state = SlotState.committed →
        Locked (.writer t) m ∧ (m.1.ring.slots i).state = .committed))
    (.look (fun _ => hkept.and ((kept_searched [i]).imp.and (kept_committed i).imp)) fun m hm =>
      ⟨hm, fun hw => searched_singleton (not_reclaimable_of_writing hw), fun hc => ⟨hm.1.1, hc⟩⟩)
    fun state => ?_
  split
  · -- a free slot is a candidate
    refine .ret fun m hm => ⟨hm.1.1, fun hnone => ?_⟩
    obtain ⟨free, oldest⟩ := found
    cases free <;> simp at hnone
  · -- a committed slot whose mask is not empty cannot become reclaimable unnoticed
    refine .bind (Ψ := fun mask m => ((Locked (.writer t) m ∧ Clear (.writer t) m) ∧
      (found = (none, none) → Searched t done m)) ∧ (mask ≠ 0 → Searched t [i] m))
      (.look (fun _ => hkept.and (kept_searched [i]).imp) fun m hm => ⟨hm.1, fun hmask =>
        searched_singleton (not_reclaimable_of_mask (hm.2.2 rfl).2 hmask)⟩) fun mask => ?_
    split
    · refine .bind (.still still_read (hkept.and (kept_searched [i]).imp)) fun seq => ?_
      obtain ⟨free, oldest⟩ := found
      cases oldest with
      | none => exact .ret fun m hm => ⟨hm.1.1, nofun⟩
      | some best =>
        dsimp only
        split
        · exact .ret fun m hm => ⟨hm.1.1, nofun⟩
        · exact .ret fun m hm => ⟨hm.1.1, nofun⟩
    · next hmask =>
      exact .ret fun m hm => ⟨hm.1.1, fun hnone => searched_snoc (hm.1.2 hnone) (hm.2 hmask)⟩
  · exact .ret fun m hm => ⟨hm.1.1, fun hnone => searched_snoc (hm.1.2 hnone) (hm.2.1 rfl)⟩

/-- Without a slot to take, all of them have been seen taken. -/
theorem chooseSlot_searched :
    Keeping (.writer t) (Producer.chooseSlot : RingM P L.slotCount _)
      (fun m => Locked (.writer t) m ∧ Clear (.writer t) m)
      fun chosen m => (Locked (.writer t) m ∧ Clear (.writer t) m) ∧
        (chosen = none → Searched t (List.finRange _) m) := by
  refine .bind (.pre (.foldlM (fun done found m => (Locked (.writer t) m ∧ Clear (.writer t) m) ∧
    (found = (none, none) → Searched t done m)) (fun done i found =>
      selectSlot_searched found done i) _ _) fun m hm => ⟨hm, fun _ => nofun⟩) fun found => ?_
  refine .ret fun m hm => ⟨hm.1, fun hnone => hm.2 ?_⟩
  obtain ⟨free, oldest⟩ := found
  cases free <;> cases oldest <;> simp at hnone ⊢

/-! ## a reservation -/

/-- Once a reservation has been begun, the rest of it leaves everything clear. -/
theorem writeHeader_clear (slot : Fin L.slotCount) (sequence mask : UInt64) (dtype : DType)
    (ndim : Nat) (shape strides : Fin maxNdim → UInt32) (nbytes : Nat)
    (timestampNs : Option UInt64) :
    Keeping (.writer t) (Producer.writeHeader t slot sequence mask dtype ndim shape strides nbytes
      timestampNs : RingM P L.slotCount Unit)
      (fun m => Locked (.writer t) m ∧ Clear (.writer t) m)
      fun _ m => Locked (.writer t) m ∧ Clear (.writer t) m := by
  have hkept : Kept (.writer t) fun m : Watched P L.slotCount =>
      (Locked (.writer t) m ∧ Busy m) ∧ Clear (.writer t) m := kept_busy.and kept_clear
  have hslot : ∀ {f : Slot → Slot},
      (∀ s, (f s).state = s.state ∧ (f s).readersMask = s.readersMask) →
      Keeping (.writer t) (storeSlot slot f : RingM P L.slotCount Unit)
        (fun m => (Locked (.writer t) m ∧ Busy m) ∧ Clear (.writer t) m)
        fun _ m => (Locked (.writer t) m ∧ Busy m) ∧ Clear (.writer t) m :=
    fun hf => .still (still_slot hf) hkept
  refine .bind (.store hkept fun s g w _ hm => ⟨does_setSlot hm.1, ⟨hm.1, fun u => ?_⟩, ?_⟩)
    fun _ => ?_
  · exact (observe_busy rfl u).trans (by simp [Ghost.begin])
  · refine hm.2.step fun j hj => ?_
    have hslot := frees_setSlot (i := slot) (f := fun s => { s with state := .writing }) rfl hj
    exact absurd hslot.2 (not_reclaimable_of_writing rfl)
  refine .bind (hslot fun _ => ⟨rfl, rfl⟩) fun _ => ?_
  refine .bind (.still still_read hkept) fun token => ?_
  refine .bind (hslot fun _ => ⟨rfl, rfl⟩) fun _ => ?_
  refine .bind (.still (still_slot fun _ => ⟨rfl, rfl⟩) hkept) fun _ => ?_
  refine .bind (.still (still_timestampOrNow _) hkept) fun stamp => ?_
  refine .bind (hslot fun _ => ⟨rfl, rfl⟩) fun _ => .bind (hslot fun _ => ⟨rfl, rfl⟩) fun _ => ?_
  refine .bind (hslot fun _ => ⟨rfl, rfl⟩) fun _ => .bind (hslot fun _ => ⟨rfl, rfl⟩) fun _ => ?_
  refine .bind (hslot fun _ => ⟨rfl, rfl⟩) fun _ => ?_
  refine .bind (.still (.forM (fun d => still_writeDim slot shape strides d) _) hkept) fun _ => ?_
  refine .bind (.store hkept fun s g w _ hm => ?_) fun _ => ?_
  · have hbusy : ∀ {s'} {g'}, s'.lock = s.lock →
        Busy (s', g', observe (.writer t) (s, g) (s', g') w) := fun hl u =>
      (observe_busy hl u).trans (by simp [show w.busy u = true from hm.1.2 u])
    exact ⟨does_setSlot hm.1.1, ⟨hm.1.1, hbusy rfl⟩, hm.2.step fun _ _ => hbusy rfl⟩
  refine .bind (.still (still_storeReaders _ _ _) hkept) fun _ => ?_
  exact .post (.still (.modifyWith fun s _ => { Still.refl s with }) hkept) fun _ m hm =>
    ⟨hm.1.1, hm.2⟩

/-- A reservation: without a slot, all of them have been seen taken. -/
theorem lockedReserve_searched (dtype : DType) (ndim : Nat) (shape strides : Fin maxNdim → UInt32)
    (nbytes : Nat) (timestampNs : Option UInt64) :
    Keeping (.writer t) (Producer.lockedReserve t dtype ndim shape strides nbytes timestampNs :
      RingM P L.slotCount _) (Clear (.writer t))
      fun r m => Clear (.writer t) m ∧ (r = none → Searched t (List.finRange _) m) := by
  have hkept : Kept (.writer t) fun m : Watched P L.slotCount =>
      Locked (.writer t) m ∧ Clear (.writer t) m := kept_locked.and kept_clear
  refine .bind lockRegistry_clear fun _ => .bind (Ψ := fun r m => Locked (.writer t) m ∧
    Clear (.writer t) m ∧ (r = none → Searched t (List.finRange _) m)) ?_ fun r => ?_
  · refine .bind reapDead_clear fun _ => ?_
    refine .bind chooseSlot_searched fun chosen => ?_
    split
    · exact .ret fun m hm => ⟨hm.1.1, hm.1.2, fun _ => hm.2 rfl⟩
    · refine .pre (.bind (.still still_read hkept) fun sequence => ?_) fun m hm => hm.1
      refine .bind (.still still_activeMask hkept) fun mask => ?_
      refine .bind (writeHeader_clear _ _ _ _ _ _ _ _ _) fun _ => ?_
      exact .ret fun m hm => ⟨hm.1, hm.2, nofun⟩
  · refine .bind (unlockRegistry_keeps (kept_clear.and (kept_searched _).imp) fun _ hm => hm)
      fun _ => ?_
    exact .ret fun m hm => hm

/-! ## the sleep -/

/-- Whoever sleeps has searched, if it is a producer. -/
theorem futexWait_clear (word : FutexWord) (expected : UInt32) :
    Keeping a (futexWait a word expected : RingM P L.slotCount Unit)
      (fun m => Clear a m ∧ ∀ t, a = .writer t → Searched t (List.finRange _) m)
      fun _ => Clear a := by
  refine Rules.Outline.watchBind (M := fun _ => Clear a)
    (Rules.Outline.watchAct (fun _ => kept_clear.stable) fun s g w _ _ hm x s' hs => ?_) fun _ =>
      Rules.Outline.watchAct (fun _ => (kept_awake.and kept_clear).stable)
        fun s g w _ _ hm x s' hs => ?_
  · cases hs
    obtain ⟨hawake, hclear, hsearched⟩ := hm
    by_cases hword : s.ring.futexWord word = expected
    · simp only [if_pos hword]
      refine ⟨?_, fun _ _ => hclear.step fun j hj => by simp [not_frees] at hj⟩
      refine {
        noted := rfl, os := rfl, lock := .inl rfl, state := fun _ => .inl rfl,
        reclaim := .inl rfl, awake := .inl hawake, asleep := fun b => ?_ }
      by_cases hb : b = a
      · subst hb
        exact .inr (.inr ⟨rfl, {
          awake := hawake
          word := ⟨word, by simp [hword]⟩
          ring := rfl
          lock := rfl
          hist := rfl
          searched := fun t ht j => hsearched t ht j (List.mem_finRange j) }⟩)
      · exact .inl (by simp [hb])
    · simp only [if_neg hword]
      exact ⟨(Still.refl s).does.guar hawake, fun _ _ =>
        hclear.step fun j hj => by simp [not_frees] at hj⟩
  · cases hs
    refine ⟨?_, fun _ _ => ⟨by simp [Awake], hm.step fun j hj => by simp [not_frees] at hj⟩⟩
    refine {
      noted := rfl, os := rfl, lock := .inl rfl, state := fun _ => .inl rfl,
      reclaim := .inl rfl, awake := .inr (by simp), asleep := fun b => ?_ }
    by_cases hb : b = a
    · exact .inr (.inl (by simp [hb]))
    · exact .inl (by simp [hb])

/-- A producer gives up, or sleeps after a search in vain. -/
theorem backOff_clear (policy : Backpressure) (deadline : Nat) :
    Keeping (.writer t) (Producer.backOff t policy deadline :
      RingM P L.slotCount (Option (Except Error (Option α))))
      (fun m => Clear (.writer t) m ∧ Searched t (List.finRange _) m)
      fun _ => Clear (.writer t) := by
  have hkept : Kept (.writer t) fun m : Watched P L.slotCount =>
      Clear (.writer t) m ∧ Searched t (List.finRange _) m := kept_clear.and (kept_searched _)
  unfold Producer.backOff
  split
  · refine .bind (.still (still_store (fun _ => rfl) fun _ => rfl) hkept) fun _ => ?_
    exact .ret fun m hm => hm.1
  · refine .bind (.still still_read hkept) fun time => ?_
    split
    · exact .ret fun m hm => hm.1
    · refine .bind (.still still_read hkept) fun observed => ?_
      refine .bind (.pre (futexWait_clear _ _) fun m hm => ⟨hm.1, fun u hu => ?_⟩) fun _ =>
        .ret fun m hm => hm
      cases hu
      exact hm.2

/-! ## the operations of a producer -/

/-- A commit frees nothing. -/
theorem commitSlot_clear (slot : Fin L.slotCount) (mask : UInt64) :
    Keeping (.writer t) (Producer.commitSlot t slot mask : RingM P L.slotCount Unit)
      (Clear (.writer t)) fun _ => Clear (.writer t) := by
  refine .bind (.store kept_clear fun s g w _ hm => ?_) fun _ => ?_
  · refine ⟨{ (Still.refl s).does (a := .writer t) with state := fun j => ?_ },
      hm.step fun j _ u => (observe_busy rfl u).trans (by simp [Ghost.commit])⟩
    by_cases hj : j = slot
    · subst hj
      exact .inr (.inl (by simp [Ring.setSlot]))
    · exact .inl (by simp [Ring.setSlot, hj])
  · refine .bind (.still (still_store (fun _ => rfl) fun _ => rfl) kept_clear) fun _ => ?_
    exact .still still_signal kept_clear

/-- The loop of both paths. -/
theorem searching_clear {body : RingM P L.slotCount (Option (Fin L.slotCount × UInt64 × UInt64))}
    {k : Option (Fin L.slotCount × UInt64 × UInt64) →
      RingM P L.slotCount (Option (Except Error (Option α)))}
    (hbody : Keeping (.writer t) body (Clear (.writer t)) fun r m =>
      Clear (.writer t) m ∧ (r = none → Searched t (List.finRange _) m))
    (hsome : ∀ x, Keeping (.writer t) (k (some x)) (Clear (.writer t)) fun _ => Clear (.writer t))
    (hnone : Keeping (.writer t) (k none)
      (fun m => Clear (.writer t) m ∧ Searched t (List.finRange _) m) fun _ => Clear (.writer t)) :
    Keeping (.writer t) (Prog.loop (body >>= k)) (Clear (.writer t)) fun _ =>
      Clear (.writer t) := by
  refine .loop kept_clear (fun _ => kept_clear) (.bind hbody fun r => ?_)
  cases r with
  | some x =>
    exact .post (.pre (hsome x) fun m hm => hm.1) fun r m hm => by cases r <;> exact hm
  | none =>
    exact .post (.pre hnone fun m hm => ⟨hm.1, hm.2 rfl⟩) fun r m hm => by cases r <;> exact hm

/-- `publish`, with as many rounds as it takes. -/
theorem publish_clear (view : TensorView) (policy : Backpressure) (timeout : Nat) :
    Keeping (.writer t) (Producer.publish L t view policy timeout : RingM P L.slotCount _)
      (Clear (.writer t)) fun _ => Clear (.writer t) := by
  unfold Producer.publish
  split
  · exact .ret fun m hm => hm
  refine .bind (.still still_read kept_clear) fun start => ?_
  refine searching_clear (lockedReserve_searched _ _ _ _ _ _) (fun x => ?_) (backOff_clear policy _)
  refine .bind (.still (still_copyPayload _ _) kept_clear) fun _ => ?_
  exact .bind (commitSlot_clear _ _) fun _ => .ret fun m hm => hm

theorem reserve_clear (dtype : DType) (shape : List UInt32) (policy : Backpressure)
    (timeout : Nat) :
    Keeping (.writer t) (Producer.reserve L t dtype shape policy timeout : RingM P L.slotCount _)
      (Clear (.writer t)) fun _ => Clear (.writer t) := by
  unfold Producer.reserve
  split
  · exact .ret fun m hm => hm
  dsimp only
  split
  · exact .ret fun m hm => hm
  refine .bind (.still still_read kept_clear) fun start => ?_
  refine searching_clear (lockedReserve_searched _ _ _ _ _ _) (fun x => ?_) (backOff_clear policy _)
  have hown : ∀ w : SlotWriter L.slotCount, (Prog.modify fun s : State P L.slotCount =>
      { s with writer := Function.update s.writer t (some w) } : RingM P L.slotCount Unit).Acts
        Stills := fun w => still_own (fun _ => rfl) (fun _ => rfl) (fun _ => rfl) fun _ => rfl
  obtain ⟨slot, sequence, mask⟩ := x
  dsimp only
  split
  · refine .bind (.still (still_copyPayload _ _) kept_clear) fun _ => ?_
    exact .bind (.still (hown _) kept_clear) fun _ => .ret fun m hm => hm
  · exact .bind (.still (hown _) kept_clear) fun _ => .ret fun m hm => hm

theorem still_consume : (SlotWriter.consume t : RingM P L.slotCount Unit).Acts Stills :=
  still_own (fun _ => rfl) (fun _ => rfl) (fun _ => rfl) fun _ => rfl

theorem commit_clear (w : SlotWriter L.slotCount) :
    Keeping (.writer t) (w.commit t : RingM P L.slotCount _) (Clear (.writer t))
      fun _ => Clear (.writer t) :=
  .bind (.still still_consume kept_clear) fun _ => .bind (commitSlot_clear _ _) fun _ =>
    .ret fun _ hm => hm

/-- The slot is free before the lock is given back, and the signal comes last. -/
theorem abort_clear (w : SlotWriter L.slotCount) :
    Keeping (.writer t) (w.abort t : RingM P L.slotCount Unit) (Clear (.writer t))
      fun _ => Clear (.writer t) := by
  refine .bind (.still still_consume kept_clear) fun _ => .bind lockRegistry_clear fun _ => ?_
  refine .bind (.pre setSlot_locked fun m hm => hm.1) fun _ => ?_
  refine .bind (.still (still_storeReaders _ _ _) kept_locked) fun _ => ?_
  refine .bind setSlot_locked fun _ => ?_
  refine .bind (.still (.act fun s _ b s' hs => ?_) kept_locked) fun _ => ?_
  · split at hs
    · cases hs
      exact { Still.refl s with }
    · cases hs
      exact Still.refl s
  refine .bind (.pre (unlockRegistry_keeps (Θ := fun _ => True) kept_true fun _ hm => hm)
    fun m hm => ⟨hm, trivial⟩) fun _ => ?_
  exact .post (.pre (signal_clear (φ := False)) fun m _ hf => hf.elim) fun _ m hm => hm.2

/-! ## the operations of a consumer -/

variable {c : Nat}

/-- A consumer sleeps on its own word. -/
theorem next_clear (self : Consumer) (timeout : Nat) :
    Keeping (.consumer c) (Consumer.nextRaw L.slotCapacity c self timeout :
      RingM P L.slotCount _) (Clear (.consumer c)) fun _ => Clear (.consumer c) := by
  refine .bind (.still still_read kept_clear) fun start => ?_
  refine .loop kept_clear (fun _ => kept_clear) ?_
  refine .bind (.still still_read kept_clear) fun observed => ?_
  refine .bind (.still (still_tryTake _ _ _) kept_clear) fun taken => ?_
  cases taken with
  | some m =>
    refine .bind (.still ?_ kept_clear) fun _ => ?_
    · exact still_own (fun _ => rfl) (fun _ => rfl) (fun _ => rfl) fun _ => rfl
    refine .bind (.still (still_storeEntry _ _) kept_clear) fun _ => ?_
    exact .bind (.still (still_heartbeat _) kept_clear) fun _ => .ret fun m hm => hm
  | none =>
    refine .bind (.still still_read kept_clear) fun time => ?_
    split
    · exact .ret fun m hm => hm
    · refine .bind (.pre (futexWait_clear _ _) fun m hm => ⟨hm, fun _ => nofun⟩) fun _ =>
        .ret fun m hm => hm

/-- The last reader signals. -/
theorem release_clear (self : Consumer) (m : TensorMeta L.slotCount) :
    Keeping (.consumer c) (Consumer.release c self m : RingM P L.slotCount _)
      (Clear (.consumer c)) fun _ => Clear (.consumer c) := by
  refine .bind (.still still_read kept_clear) fun seq => ?_
  split
  · refine .bind (.still ?_ kept_clear) fun _ => .ret fun m hm => hm
    exact still_own (fun _ => rfl) (fun _ => rfl) (fun _ => rfl) fun _ => rfl
  refine .bind (Ψ := fun previous k => (previous &&& bit self.index ≠ 0 ∧
    previous &&& ~~~bit self.index = 0) ∨ Clear (.consumer c) k) (.act ?_ ?_) fun previous => ?_
  · exact fun _ => {
      stable := (Rules.Stable.const _).or kept_clear.stable
      still := fun s g w s' g' h hm => hm.imp_right (kept_clear.still s g w s' g' h) }
  · intro s g w _ hm x s' hs
    cases hs
    refine ⟨{ (Still.refl s).does (a := .consumer c) with state := fun j => .inl ?_ }, ?_⟩
    · by_cases hj : j = m.slotIndex
      · subst hj
        simp [Ring.setSlot, Consumer.dropLease]
      · simp [Ring.setSlot, Consumer.dropLease, hj]
    · by_cases hlast : (s.ring.slots m.slotIndex).readersMask &&& bit self.index ≠ 0 ∧
          (s.ring.slots m.slotIndex).readersMask &&& ~~~bit self.index = 0
      · exact .inl hlast
      · refine .inr (hm.step fun j hj => absurd ?_ hlast)
        have hslot := frees_setSlot (i := m.slotIndex)
          (f := fun t => { t with readersMask := t.readersMask &&& ~~~bit self.index }) rfl hj
        exact last_bit hslot.1 hslot.2
  split
  · next hbit =>
    exact .ret fun k hm => hm.resolve_left fun h => h.1 hbit
  have hkept : Kept (.consumer c) fun k : Watched P L.slotCount =>
      previous &&& ~~~bit self.index = 0 ∨ Clear (.consumer c) k := {
    stable := (Rules.Stable.const _).or kept_clear.stable
    still := fun s g w s' g' h hm => hm.imp_right (kept_clear.still s g w s' g' h) }
  refine .bind (.pre (.still (still_storeReaders _ _ _) hkept) fun k hm => hm.imp_left (·.2))
    fun _ => ?_
  refine .bind (.still (still_heartbeat _) hkept) fun _ => ?_
  split
  · refine .bind (.pre (signal_clear (φ := False)) fun k _ hf => hf.elim) fun _ => ?_
    exact .ret fun k hm => hm.2
  · next hlast => exact .ret fun k hm => hm.resolve_left hlast

/-- `close` signals if it has freed a slot. -/
theorem close_clear (self : Consumer) :
    Keeping (.consumer c) (Consumer.close c self : RingM P L.slotCount Unit)
      (Clear (.consumer c)) fun _ => Clear (.consumer c) := by
  have hkept : Kept (.consumer c) fun m : Watched P L.slotCount =>
      Locked (.consumer c) m ∧ Clear (.consumer c) m := kept_locked.and kept_clear
  refine .bind (.still (.act fun s _ b s' hs => ?_) kept_clear) fun closed => ?_
  · cases hs
    exact { Still.refl s with }
  split
  · exact .ret fun m hm => hm
  refine .bind lockRegistry_clear fun _ => ?_
  refine .bind (.pre (dropConsumerBit_clear (φ := True) self.index) fun m hm =>
    ⟨hm.1, fun _ => hm.2⟩) fun freed => ?_
  have hend : Keeping (.consumer c) (do
      Ring.freeEntry (.consumer c) self.index
      store fun r => { r with registryEpoch := r.registryEpoch + 1 }
      unlockRegistry : RingM P L.slotCount Unit)
      (fun m => Locked (.consumer c) m ∧ Clear (.consumer c) m) fun _ => Clear (.consumer c) := by
    refine .bind (.still (still_freeEntry _ _) hkept) fun _ => ?_
    exact .bind (.still (still_store (fun _ => rfl) fun _ => rfl) hkept) fun _ =>
      unlockRegistry_clear
  cases freed with
  | true =>
    refine .bind (.pre (signal_clear (φ := True)) fun m hm _ => hm.1) fun _ => ?_
    exact .pre hend fun m hm => ⟨hm.1 trivial, hm.2⟩
  | false => exact .pre hend fun m hm => ⟨hm.1, hm.2 trivial rfl⟩

end TenzorBus.Wakeup
