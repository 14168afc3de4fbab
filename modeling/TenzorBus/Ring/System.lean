import TenzorBus.Ring.Producer
import TenzorBus.Ring.Consumer

/-!
# The ring as a system of actors

Which operations the API lets a process start, and in which state a ring begins. A handle is used
by one actor at a time and not after its `close`; a slot writer is used up by `commit`, `abort`
or `drop`, a lease by its release.
-/

namespace TenzorBus

open Conc

variable {P : Platform}

/-- Run a program for its effects. -/
def void {α : Type} {n : Nat} (p : RingM P n α) : RingM P n Unit := p.bind fun _ => .ret ()

/-- The operations that an idle actor may start. -/
inductive Starts (L : RingLayout) (s : State P L.slotCount) :
    Actor → RingM P L.slotCount Unit → Prop
  | register (c : Nat) (h : s.consumer c = none) :
      Starts L s (.consumer c) (void (Ring.consumer (.consumer c) c))
  | next (c : Nat) (self : Consumer) (h : s.isOpen c self) (timeout : Nat) :
      Starts L s (.consumer c) (void (Consumer.nextRaw L.slotCapacity c self timeout))
  | release (c : Nat) (self : Consumer) (h : s.isOpen c self) (m : TensorMeta L.slotCount)
      (hm : m ∈ s.leases c) :
      Starts L s (.consumer c) (void (Consumer.release c self m))
  | close (c : Nat) (self : Consumer) (h : s.isOpen c self) :
      Starts L s (.consumer c) (Consumer.close c self)
  | publish (t : Nat) (h : s.writer t = none) (view : TensorView) (policy : Backpressure)
      (timeout : Nat) :
      Starts L s (.writer t) (void (Producer.publish L t view policy timeout))
  | reserve (t : Nat) (h : s.writer t = none) (dtype : DType) (shape : List UInt32)
      (policy : Backpressure) (timeout : Nat) :
      Starts L s (.writer t) (void (Producer.reserve L t dtype shape policy timeout))
  | payload (t : Nat) (w : SlotWriter L.slotCount) (h : s.writer t = some w) (off : Nat)
      (hoff : off < w.nbytes) (b : UInt8) :
      Starts L s (.writer t) (Producer.writeByte w.slot off b)
  | setTimestampNs (t : Nat) (w : SlotWriter L.slotCount) (h : s.writer t = some w)
      (timestampNs : UInt64) :
      Starts L s (.writer t) (w.setTimestampNs timestampNs)
  | commit (t : Nat) (w : SlotWriter L.slotCount) (h : s.writer t = some w) :
      Starts L s (.writer t) (void (w.commit t))
  | abort (t : Nat) (w : SlotWriter L.slotCount) (h : s.writer t = some w) :
      Starts L s (.writer t) (w.abort t)
  | sweep (k : Nat) : Starts L s (.sweeper k) (Ring.sweep (.sweeper k))

/-- The memory of a ring of geometry `L` with its history, and what each actor has left to do. -/
abbrev RingConfig (P : Platform) (L : RingLayout) :=
  Config Actor (State P L.slotCount) (Ghost L.slotCount)

/-- The ring of geometry `L` on the platform `P`. The actors of a process act once it has been
started, until it dies. -/
def ringSystem (P : Platform) (L : RingLayout) :
    System Actor (State P L.slotCount) (Ghost L.slotCount) where
  starts a s p := s.running a ∧ Starts L s a p
  live a s := s.aliveActor a
  env s t := ∃ os, P.step s.1.os os ∧ t = ({ s.1 with os := os }, s.2)

/-- A fresh ring whose sequence counter starts at `k`; nobody holds anything. -/
def State.init {n : Nat} (k : UInt64) (os : P.Os) : State P n :=
  { ring := .format n k, lock := none, os := os, asleep := fun _ => none,
    consumer := fun _ => none, leases := fun _ => [], writer := fun _ => none }

def Ghost.init (n : Nat) (k : UInt64) : Ghost n :=
  { num := fun _ => 0, next := k.toNat, reservation := fun _ => none, begun := 0,
    holder := fun _ => none, registration := fun _ => none, published := [],
    position := fun _ => 0, handed := fun _ => [], taken := fun _ => [], trying := fun _ => 0,
    tries := fun _ => [], validated := [], verdicts := [], violations := [], refused := [],
    counting := none, changing := fun _ => none, latest := fun _ => none,
    sweeping := fun _ => none }

/-- The configurations in which a run begins, on a system that is as `start` says. -/
def Fresh (P : Platform) (L : RingLayout) (k : UInt64) (start : P.Os → Prop)
    (c : RingConfig P L) : Prop :=
  ∃ os, start os ∧ c = { mem := (.init k os, .init _ k), pool := fun _ => .ret () }

end TenzorBus
