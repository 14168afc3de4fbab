import TenzorBus.Arrival.Rules

/-!
# Everything else is mild

The actions of the operations that neither commit, nor count, nor signal `G_PUBLISH_FUTEX`, nor put
anybody to sleep.

* `mild_inner` : what happens inside an operation
* `mild_consumer`, `mild_take`, `mild_release`, `mild_close`, `mild_abort` : the rest
-/

namespace TenzorBus.Arrival

open Conc

variable {P : Platform} {n : Nat} {L : RingLayout} {α : Type} {a : Actor}

/-! ## inside -/

/-- Nothing happens. -/
theorem Mild.refl (m : State P n × Ghost n) : Mild a m m where
  os := rfl
  count := rfl
  futex := rfl
  asleep _ := .inl rfl
  published := rfl
  trying _ _ := rfl
  handed _ _ := rfl
  registration _ _ := rfl

/-- What happens inside an operation is mild. -/
theorem Inner.mild {m m' : State P n × Ghost n} (h : Inner m m') : Mild a m m' where
  os := h.os
  count := h.count
  futex := h.futex
  asleep := h.asleep
  published := h.published
  trying _ _ := by rw [h.trying]
  handed _ _ := by rw [h.handed]
  registration _ _ := by rw [h.registration]

/-- The same of a program. -/
theorem mild_inner {p : RingM P n α} (h : p.Acts Inner) : p.Acts (Mild a) :=
  h.mono fun _ _ => Inner.mild

/-! ## the registry -/

/-- The part of a registration behind the choice of an entry: only its own registration is new. -/
theorem mild_subscribe (c : Nat) (i : Fin 64) :
    (Ring.subscribe (.consumer c) c i : RingM P n Unit).Acts (Mild (.consumer c)) := by
  refine .bind (mild_inner inner_read) fun next => ?_
  refine .bind (.act fun s g b s' hs => ?_) fun generation => ?_
  · cases hs
    exact { Mild.refl (s, g) with }
  refine .bind (mild_inner inner_entry) fun _ => .bind (mild_inner inner_read) fun token =>
    .bind (mild_inner inner_entry) fun _ => .bind (mild_inner inner_read) fun stamp =>
      .bind (mild_inner inner_entry) fun _ => .bind (mild_inner inner_entry) fun _ => ?_
  refine .bind (.modifyWith fun s g => ?_) fun _ => ?_
  · exact { Mild.refl (s, g) with
      registration := fun c' hc => by
        have : c' ≠ c := fun e => hc (by rw [e])
        simp [Ghost.register, this] }
  refine .bind (mild_inner inner_read) fun count =>
    .bind (mild_inner (inner_storeConsumers _)) fun _ =>
      .bind (.modifyWith fun s g => { Mild.refl (s, g) with }) fun _ =>
        .bind (mild_inner inner_unlockRegistry) fun _ => ?_
  exact .modifyWith fun s g => { Mild.refl (s, g) with }

/-- A registration. -/
theorem mild_consumer (c : Nat) :
    (Ring.consumer (.consumer c) c : RingM P n (Except Error Unit)).Acts (Mild (.consumer c)) := by
  refine .bind (mild_inner (inner_lockRegistry _)) fun _ =>
    .bind (mild_inner (inner_reapDead _)) fun _ =>
      .bind (mild_inner (inner_reads (Ring.firstFree_reads _))) fun chosen => ?_
  split
  · exact .bind (.modifyWith fun s g => { Mild.refl (s, g) with }) fun _ =>
      .bind (mild_inner inner_unlockRegistry) fun _ => .ret _
  · exact .bind (mild_subscribe c _) fun _ => .ret _

/-! ## the producer -/

theorem mild_consume (t : Nat) : (SlotWriter.consume t : RingM P n Unit).Acts (Mild a) :=
  .modifyWith fun s g => { Mild.refl (s, g) with }

/-- An abort returns slot and number, but commits nothing. -/
theorem mild_abort (t : Nat) (w : SlotWriter n) : (w.abort t : RingM P n Unit).Acts (Mild a) :=
  .bind (mild_consume t) fun _ => mild_inner (inner_releaseSlot t w)

/-! ## the consumer -/

/-- A consumer is handed something. -/
theorem mild_take (c : Nat) (m : TensorMeta n) :
    (Consumer.take c m : RingM P n Unit).Acts (Mild (.consumer c)) :=
  .modifyWith fun s g =>
    { Mild.refl (s, g) with
      handed := fun c' hc => by
        have : c' ≠ c := fun e => hc (by rw [e])
        simp [Ghost.hand, this]
      registration := fun c' hc => by
        have : c' ≠ c := fun e => hc (by rw [e])
        simp [Ghost.hand, this] }

/-- A release may signal, but on the word of the producers. -/
theorem mild_release (c : Nat) (self : Consumer) (m : TensorMeta n) :
    (Consumer.release c self m : RingM P n (Except Error Unit)).Acts (Mild a) := by
  refine .bind (mild_inner inner_read) fun seq => ?_
  split
  · exact .bind (.modifyWith fun s g => { Mild.refl (s, g) with }) fun _ => .ret _
  refine .bind (.act fun s g x s' hs => ?_) fun previous => ?_
  · cases hs
    dsimp only
    split <;> exact { Mild.refl (s, g) with }
  split
  · exact .ret _
  refine .bind (mild_inner (inner_storeReaders _ _ _)) fun _ =>
    .bind (mild_inner (inner_heartbeat self)) fun _ => ?_
  split
  · exact .bind (mild_inner inner_signal) fun _ => .ret _
  · exact .ret _

/-- So may `close`. -/
theorem mild_close (c : Nat) (self : Consumer) :
    (Consumer.close c self : RingM P n Unit).Acts (Mild (.consumer c)) := by
  refine .bind (.act fun s g b s' hs => ?_) fun closed => ?_
  · cases hs
    exact { Mild.refl (s, g) with
      registration := fun c' hc => by
        have : c' ≠ c := fun e => hc (by rw [e])
        simp [Ghost.closing, this] }
  split
  · exact .ret _
  refine .bind (mild_inner (inner_lockRegistry _)) fun _ =>
    .bind (mild_inner (inner_dropConsumerBit _ _)) fun freed => ?_
  have hrest : (do
      Ring.freeEntry (.consumer c) self.index
      store fun r => { r with registryEpoch := r.registryEpoch + 1 }
      unlockRegistry : RingM P n Unit).Acts (Mild (.consumer c)) :=
    .bind (mild_inner (inner_freeEntry _ _)) fun _ =>
      .bind (.modifyWith fun s g => { Mild.refl (s, g) with }) fun _ =>
        mild_inner inner_unlockRegistry
  split
  · exact .bind (mild_inner inner_signal) fun _ => hrest
  · exact hrest

end TenzorBus.Arrival
