import TenzorBus.Ring.Reads

/-!
# Inside the operations

What the parts of the operations leave alone that neither hand anything over, nor commit, nor count
or signal a publication, nor put anybody to sleep.

* `Inner` : an action of such a part
* `inner_read`, `inner_slot`, `inner_entry`, `inner_signal` : single actions
* `inner_reapDead`, `inner_lockedReserve` : programs
-/

namespace TenzorBus

open Conc

variable {P : Platform} {n : Nat} {α : Type}

/-- The handles of the processes, what has been published and handed over, and the registrations
stay as they are; nobody falls asleep. -/
structure Inner (m m' : State P n × Ghost n) : Prop where
  consumer : m'.1.consumer = m.1.consumer
  leases : m'.1.leases = m.1.leases
  writer : m'.1.writer = m.1.writer
  os : m'.1.os = m.1.os
  count : m'.1.ring.publishCount = m.1.ring.publishCount
  futex : m'.1.ring.publishFutex = m.1.ring.publishFutex
  asleep : ∀ b, m'.1.asleep b = m.1.asleep b ∨ m'.1.asleep b = none
  published : m'.2.published = m.2.published
  trying : m'.2.trying = m.2.trying
  handed : m'.2.handed = m.2.handed
  registration : m'.2.registration = m.2.registration

theorem Inner.refl (m : State P n × Ghost n) : Inner m m where
  consumer := rfl
  leases := rfl
  writer := rfl
  os := rfl
  count := rfl
  futex := rfl
  asleep _ := .inl rfl
  published := rfl
  trying := rfl
  handed := rfl
  registration := rfl

/-! ## single actions -/

theorem inner_read {f : State P n → α} : (Prog.read f : RingM P n α).Acts Inner :=
  .read Inner.refl

theorem inner_reads {p : RingM P n α} (h : p.Reads) : p.Acts Inner := .of_reads h Inner.refl

theorem inner_slot {i : Fin n} {f : Slot → Slot} : (storeSlot i f : RingM P n Unit).Acts Inner :=
  .modifyWith fun s g => { Inner.refl (s, g) with }

theorem inner_entry {i : Fin 64} {f : ConsumerEntry → ConsumerEntry} :
    (storeEntry i f : RingM P n Unit).Acts Inner :=
  .modifyWith fun s g => { Inner.refl (s, g) with }

theorem inner_storeReaders (b : Actor) (i : Fin n) (count : Nat) :
    (storeReaders b i count : RingM P n Unit).Acts Inner :=
  .modifyWith fun s g => { Inner.refl (s, g) with }

theorem inner_wakeAll (w : FutexWord) : (wakeAll w : RingM P n Unit).Acts Inner :=
  .modifyWith fun s g =>
    { Inner.refl (s, g) with
      asleep := fun b => by
        cases h : s.asleep b with
        | none => exact .inl (by simp [h])
        | some x =>
          by_cases hx : x.1 = w
          · exact .inr (by simp [h, hx])
          · exact .inl (by simp [h, hx]) }

/-- The signal for producers. -/
theorem inner_signal : (signal .reclaim : RingM P n Unit).Acts Inner :=
  .bind (.modifyWith fun s g => { Inner.refl (s, g) with }) fun _ => inner_wakeAll _

/-- Whoever sleeps in `futex::wait` wakes up. -/
theorem inner_wake (b : Actor) : (Prog.modify fun s : State P n =>
    { s with asleep := Function.update s.asleep b none } : RingM P n Unit).Acts Inner :=
  .modifyWith fun s g =>
    { Inner.refl (s, g) with
      asleep := fun b' => by
        by_cases hb : b' = b
        · exact .inr (by simp [hb])
        · exact .inl (by simp [hb]) }

theorem inner_lockRegistry (b : Actor) : (lockRegistry b : RingM P n Unit).Acts Inner :=
  .act fun s g x s' hs => by
    obtain ⟨-, hs⟩ := Option.ite_none_right_eq_some.mp hs
    cases hs
    exact { Inner.refl (s, g) with }

theorem inner_unlockRegistry : (unlockRegistry : RingM P n Unit).Acts Inner :=
  .modifyWith fun s g => { Inner.refl (s, g) with }

theorem inner_pidAlive (x : Subject n) (pid token : UInt32) :
    (pidAliveWithToken x pid token : RingM P n Bool).Acts Inner :=
  .act fun s g b s' hs => by
    cases hs
    exact { Inner.refl (s, g) with }

/-! ## the registry -/

theorem inner_storeConsumers (count : UInt32) :
    (Ring.storeConsumers count : RingM P n Unit).Acts Inner :=
  .modifyWith fun s g => { Inner.refl (s, g) with }

theorem inner_freeEntry (b : Actor) (i : Fin 64) :
    (Ring.freeEntry b i : RingM P n Unit).Acts Inner :=
  .bind (.modifyWith fun s g => { Inner.refl (s, g) with }) fun _ =>
    .bind inner_read fun _ => inner_storeConsumers _

theorem inner_dropConsumerBit (b : Actor) (i : Fin 64) :
    (Ring.dropConsumerBit b i : RingM P n Bool).Acts Inner := by
  refine .foldlM (fun freed j => ?_) _ _
  refine .bind (.act fun s g x s' hs => ?_) fun previous => ?_
  · cases hs
    dsimp only
    split <;> exact { Inner.refl (s, g) with }
  · split
    · exact .bind (inner_storeReaders _ _ _) fun _ => .ret _
    · exact .ret _

theorem inner_reapEntry (b : Actor) (freed : Bool) (i : Fin 64) :
    (Ring.reapEntry b freed i : RingM P n Bool).Acts Inner := by
  refine .bind inner_read fun state => ?_
  split
  · exact .ret _
  refine .bind inner_read fun pid => ?_
  split
  · exact .ret _
  refine .bind (inner_pidAlive _ _ _) fun alive => ?_
  split
  · exact .ret _
  refine .bind (inner_dropConsumerBit b i) fun dropped => .bind inner_entry fun _ => ?_
  refine .bind (inner_freeEntry b i) fun _ => ?_
  refine .bind (.modifyWith fun s g => { Inner.refl (s, g) with }) fun _ => ?_
  exact .bind (.modifyWith fun s g => { Inner.refl (s, g) with }) fun _ => .ret _

theorem inner_reapSlot (b : Actor) (freed : Bool) (j : Fin n) :
    (Ring.reapSlot b freed j : RingM P n Bool).Acts Inner := by
  refine .bind inner_read fun state => ?_
  split
  · exact .ret _
  refine .bind inner_read fun pid => .bind inner_read fun token => ?_
  split
  · exact .ret _
  refine .bind (inner_pidAlive _ _ _) fun alive => ?_
  split
  · exact .ret _
  refine .bind (.modifyWith fun s g => { Inner.refl (s, g) with }) fun _ =>
    .bind (inner_storeReaders _ _ _) fun _ =>
      .bind (.modifyWith fun s g => { Inner.refl (s, g) with }) fun _ => .ret _

theorem inner_reapDead (b : Actor) : (Ring.reapDead b : RingM P n Unit).Acts Inner := by
  refine .bind (.modifyWith fun s g => { Inner.refl (s, g) with }) fun _ => ?_
  refine .bind (.foldlM (inner_reapEntry b) _ _) fun freed => ?_
  refine .bind (.foldlM (inner_reapSlot b) _ _) fun freed => ?_
  refine .bind (.modifyWith fun s g => { Inner.refl (s, g) with }) fun _ => ?_
  split
  · exact inner_signal
  · exact .ret _

theorem inner_sweep (b : Actor) : (Ring.sweep b : RingM P n Unit).Acts Inner :=
  .bind (inner_lockRegistry b) fun _ => .bind (inner_reapDead b) fun _ => inner_unlockRegistry

/-! ## the producer -/

theorem inner_writeByte (slot : Fin n) (off : Nat) (b : UInt8) :
    (Producer.writeByte slot off b : RingM P n Unit).Acts Inner :=
  inner_slot

theorem inner_copyPayload (slot : Fin n) (data : List UInt8) :
    (Producer.copyPayload slot data : RingM P n Unit).Acts Inner :=
  .forM (fun _ => inner_writeByte _ _ _) _

theorem inner_writeHeader (t : Nat) (slot : Fin n) (sequence mask : UInt64) (dtype : DType)
    (ndim : Nat) (shape strides : Fin maxNdim → UInt32) (nbytes : Nat)
    (timestampNs : Option UInt64) :
    (Producer.writeHeader t slot sequence mask dtype ndim shape strides nbytes timestampNs :
      RingM P n Unit).Acts Inner := by
  refine .bind (.modifyWith fun s g => { Inner.refl (s, g) with }) fun _ => ?_
  refine .bind inner_slot fun _ => .bind inner_read fun token => .bind inner_slot fun _ => ?_
  refine .bind (.modifyWith fun s g => { Inner.refl (s, g) with }) fun _ => ?_
  refine .bind (inner_reads (Producer.timestampOrNow_reads timestampNs)) fun stamp => ?_
  refine .bind inner_slot fun _ => .bind inner_slot fun _ => .bind inner_slot fun _ =>
    .bind inner_slot fun _ => .bind inner_slot fun _ => ?_
  refine .bind (.forM (fun d => .bind inner_slot fun _ => inner_slot) _) fun _ => ?_
  refine .bind (.modifyWith fun s g => { Inner.refl (s, g) with }) fun _ => ?_
  refine .bind (inner_storeReaders _ _ _) fun _ => ?_
  exact .modifyWith fun s g => { Inner.refl (s, g) with }

theorem inner_lockedReserve (t : Nat) (dtype : DType) (ndim : Nat)
    (shape strides : Fin maxNdim → UInt32) (nbytes : Nat) (timestampNs : Option UInt64) :
    (Producer.lockedReserve t dtype ndim shape strides nbytes timestampNs :
      RingM P n _).Acts Inner := by
  refine .bind (inner_lockRegistry _) fun _ => .bind ?_ fun reserved =>
    .bind inner_unlockRegistry fun _ => .ret _
  refine .bind (inner_reapDead _) fun _ =>
    .bind (inner_reads Producer.chooseSlot_reads) fun chosen => ?_
  split
  · exact .ret _
  · exact .bind inner_read fun sequence => .bind (inner_reads Ring.activeMask_reads) fun mask =>
      .bind (inner_writeHeader _ _ _ _ _ _ _ _ _ _) fun _ => .ret _

theorem inner_releaseSlot (t : Nat) (w : SlotWriter n) :
    (w.releaseSlot t : RingM P n Unit).Acts Inner := by
  refine .bind (inner_lockRegistry _) fun _ => ?_
  refine .bind (.modifyWith fun s g => { Inner.refl (s, g) with }) fun _ => ?_
  refine .bind (inner_storeReaders _ _ _) fun _ => ?_
  refine .bind (.modifyWith fun s g => { Inner.refl (s, g) with }) fun _ => ?_
  refine .bind (.act fun s g b s' hs => ?_) fun _ =>
    .bind inner_unlockRegistry fun _ => inner_signal
  by_cases hseq : s.ring.nextSeq = w.sequence + 1
  · simp only [hseq, if_true] at hs
    cases hs
    exact { Inner.refl (s, g) with }
  · simp only [hseq, if_false] at hs
    cases hs
    exact { Inner.refl (s, g) with }

/-! ## the consumer -/

theorem inner_heartbeat (self : Consumer) : (self.heartbeat : RingM P n Unit).Acts Inner :=
  .bind inner_read fun _ => inner_entry

end TenzorBus
