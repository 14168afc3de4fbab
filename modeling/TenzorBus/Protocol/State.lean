import TenzorBus.Ring.Producer
import TenzorBus.Ring.Consumer

/-!
# The protocol

What the ring is for, without its words: slots with a state, a set of readers and a content;
reservations, registrations and leases; numbers that are not bounded.

* `Proto` : the state
* `Step` : everything that an actor can do, one transition for each atomic action that matters
* `Fades` : what the environment can do, let actors die

A transition says in its guards what entitles the actor to it. That the operations of the ring do
nothing else is proved in `TenzorBus.Refine`.
-/

namespace TenzorBus

variable {n : Nat}

/-! ## content -/

/-- A header that `read_validated` accepts in a ring of this slot capacity. -/
structure TensorHeader.Valid (cap : Nat) (h : TensorHeader) : Prop where
  ndim : h.ndim.toNat ≤ maxNdim
  nbytes : h.nbytes.toNat ≤ cap
  dtype : (DType.fromCode h.dtype).isSome

/-- The fields of a `TensorMeta` are those of the header. -/
structure TensorMeta.Describes (m : TensorMeta n) (h : TensorHeader) : Prop where
  timestampNs : m.timestampNs = h.timestampNs
  nbytes : m.nbytes = h.nbytes.toNat
  dtype : DType.fromCode h.dtype = some m.dtype
  ndim : m.ndim = h.ndim.toNat
  shape : m.shape = h.shape
  strides : m.strides = h.strides

/-! ## the state -/

structure Proto (n : Nat) where
  state : Fin n → SlotState
  mask : Fin n → Finset (Fin 64)
  header : Fin n → TensorHeader
  payload : Fin n → Nat → UInt8
  lock : Option Actor
  alive : Actor → Prop
  leases : Nat → List (TensorMeta n)
  hist : Ghost n

namespace Proto

/-- Consumer `c` is registered and has not called `close`. -/
def client (p : Proto n) (c : Nat) (k : Registration) : Prop :=
  p.hist.registration c = some k ∧ k.closing = false

/-- The registration of `c` is about to go: `c` itself closes it, or it is dead. -/
def leaving (p : Proto n) (a : Actor) (c : Nat) : Prop :=
  (a = .consumer c ∧ ∃ k, p.hist.registration c = some k ∧ k.closing = true) ∨
    ¬p.alive (.consumer c)

/-- Nobody alive holds the registry entry, or has an unfinished reservation of the slot. -/
def orphaned (p : Proto n) : Subject n → Prop
  | .entry i => ∀ c, p.hist.holder i = some c → ¬p.alive (.consumer c)
  | .slot j => ∀ t r, p.hist.reservation t = some r → r.slot = j → r.phase ≠ .returning →
      ¬p.alive (.writer t)

/-- Nobody alive holds the registry entry; the slot is in `STATE_WRITING` and nobody alive owns
it. -/
def dead (p : Proto n) : Subject n → Prop
  | .entry i => ∀ c, p.hist.holder i = some c → ¬p.alive (.consumer c)
  | .slot j => p.state j = .writing ∧ ∀ t r, p.hist.reservation t = some r → r.slot = j →
      r.phase ≠ .returning → ¬p.alive (.writer t)

/-- What is in a slot is what the tensor says. -/
structure Matches (p : Proto n) (m : TensorMeta n) : Prop where
  committed : p.state m.slotIndex = .committed
  sequence : m.sequence = seqWord (p.hist.num m.slotIndex)
  header : m.Describes (p.header m.slotIndex)

/-- Actor `a` is not between the store of a registry entry's state and that of `G_CONSUMERS`. -/
def counted (p : Proto n) (a : Actor) : Prop := ∀ b, p.hist.counting ≠ some (a, b)

/-- Actor `a` is not between the change of a mask and the store of the number of readers. -/
def settled (p : Proto n) (a : Actor) : Prop := p.hist.changing a = none

/-- What a commit of the reservation publishes. -/
def publication (p : Proto n) (r : Reservation n) : Publication n :=
  { slot := r.slot, sequence := seqWord (p.hist.num r.slot), header := p.header r.slot,
    payload := p.payload r.slot, mask := r.mask }

end Proto

/-! ## the transitions -/

/-- What a use of the protocol adds to the guards: when a publication may be handed over, what a
`try_take` may answer, whose leases may be found violated, and whether a sweep may be so careless
as to take a committed slot for an abandoned one. -/
structure Guards (n : Nat) where
  take : Proto n → Nat → TensorMeta n → Prop
  answer : Proto n → Nat → Option (TensorMeta n) → Prop
  loose : Registration → Prop
  careless : Prop

/-- The guards that ask for nothing; with `careless`, sweeps may take back what has been
committed. -/
def Guards.lax (n : Nat) (careless : Prop) : Guards n :=
  { take := fun _ _ _ => True, answer := fun _ _ _ => True, loose := fun _ => True
    careless := careless }

/-- What a sweep may take back. -/
def Proto.gone (p : Proto n) (G : Guards n) : Subject n → Prop
  | .entry i => p.orphaned (.entry i)
  | .slot j => p.orphaned (.slot j) ∧ (¬G.careless → p.state j = .writing)

/-- What a careful consumer knows of a publication that it has validated. -/
structure Proto.Offers (p : Proto n) (k : Registration) (m : TensorMeta n) : Prop where
  good : p.Matches m
  reader : k.index ∈ p.mask m.slotIndex

/-- What it knows of a publication that it takes. -/
structure Proto.Grants (p : Proto n) (G : Guards n) (c : Nat) (k : Registration)
    (m : TensorMeta n) : Prop extends p.Offers k m where
  newer : seqNewer m.sequence (seqWord k.last) = true
  take : G.take p c m

/-- A transition of an actor, in a ring whose slots have the capacity `cap`. -/
inductive Step (G : Guards n) (cap : Nat) : Actor → Proto n → Proto n → Prop
  | idle (a : Actor) (p : Proto n) : Step G cap a p p
  -- the registry lock
  | acquire (a : Actor) (p : Proto n)
      (free : p.lock = none ∨ ∃ b, p.lock = some b ∧ ¬p.alive b) :
      Step G cap a p { p with lock := some a }
  | unlock (a : Actor) (p : Proto n) (locked : p.lock = some a)
      (done : ∀ t r, a = .writer t → p.hist.reservation t = some r → r.phase = .inHand)
      (counted : p.counted a) :
      Step G cap a p { p with lock := none }
  -- a reservation
  | begin (t : Nat) (p : Proto n) (j : Fin n) (mask : UInt64)
      (locked : p.lock = some (.writer t)) (idle : p.hist.reservation t = none)
      (free : p.state j = .free ∨ p.state j = .committed ∧ p.mask j = ∅)
      (captured : ∀ i, i ∈ readers mask ↔ p.hist.holder i ≠ none) :
      Step G cap (.writer t) p
        { p with
          state := Function.update p.state j .writing
          hist := p.hist.begin t j mask }
  | body (t : Nat) (p : Proto n) (r : Reservation n) (header : TensorHeader)
      (payload : Nat → UInt8) (own : p.hist.reservation t = some r) (phase : r.phase ≠ .returning)
      (valid : r.phase = .inHand → header.Valid cap) :
      Step G cap (.writer t) p
        { p with
          header := Function.update p.header r.slot header
          payload := Function.update p.payload r.slot payload }
  | number (t : Nat) (p : Proto n) (r : Reservation n) (locked : p.lock = some (.writer t))
      (own : p.hist.reservation t = some r) (phase : r.phase = .header) :
      Step G cap (.writer t) p { p with hist := p.hist.number t r.slot }
  | setMask (t : Nat) (p : Proto n) (r : Reservation n) (locked : p.lock = some (.writer t))
      (own : p.hist.reservation t = some r) (phase : r.phase = .numbered)
      (settled : p.settled (.writer t)) :
      Step G cap (.writer t) p
        { p with
          mask := Function.update p.mask r.slot (readers r.mask)
          hist := (p.hist.proceed t .masked).change (.writer t) r.slot }
  | advance (t : Nat) (p : Proto n) (r : Reservation n) (locked : p.lock = some (.writer t))
      (own : p.hist.reservation t = some r) (phase : r.phase = .masked)
      (valid : (p.header r.slot).Valid cap) :
      Step G cap (.writer t) p { p with hist := p.hist.advance t }
  | commit (t : Nat) (p : Proto n) (r : Reservation n) (own : p.hist.reservation t = some r)
      (phase : r.phase = .inHand) :
      Step G cap (.writer t) p
        { p with
          state := Function.update p.state r.slot .committed
          hist := p.hist.commit t (p.publication r) }
  | cancel (t : Nat) (p : Proto n) (r : Reservation n) (locked : p.lock = some (.writer t))
      (own : p.hist.reservation t = some r) (phase : r.phase = .inHand)
      (settled : p.settled (.writer t)) :
      Step G cap (.writer t) p
        { p with
          mask := Function.update p.mask r.slot ∅
          hist := (p.hist.proceed t .aborting).change (.writer t) r.slot }
  | free (t : Nat) (p : Proto n) (r : Reservation n) (locked : p.lock = some (.writer t))
      (own : p.hist.reservation t = some r) (phase : r.phase = .aborting) :
      Step G cap (.writer t) p
        { p with
          state := Function.update p.state r.slot .free
          hist := p.hist.proceed t .returning }
  | forget (t : Nat) (p : Proto n) (r : Reservation n) (handedBack : Bool)
      (locked : p.lock = some (.writer t)) (own : p.hist.reservation t = some r)
      (phase : r.phase = .returning)
      (exchange : handedBack = true ↔ seqWord p.hist.next = seqWord (p.hist.num r.slot + 1)) :
      Step G cap (.writer t) p { p with hist := p.hist.forget t handedBack }
  -- a registration
  | register (c : Nat) (p : Proto n) (i : Fin 64) (locked : p.lock = some (.consumer c))
      (free : p.hist.holder i = none) (fresh : p.hist.registration c = none)
      (counted : p.counted (.consumer c)) :
      Step G cap (.consumer c) p { p with hist := p.hist.register c i }
  | refuse (c : Nat) (p : Proto n) (locked : p.lock = some (.consumer c))
      (full : ∀ i, p.hist.holder i ≠ none) :
      Step G cap (.consumer c) p { p with hist := p.hist.refuse c }
  | count (a : Actor) (p : Proto n) (b : Bool) (locked : p.lock = some a)
      (own : p.hist.counting = some (a, b)) :
      Step G cap a p { p with hist := p.hist.count }
  | closing (c : Nat) (p : Proto n) :
      Step G cap (.consumer c) p { p with hist := p.hist.closing c }
  | dropBit (a : Actor) (p : Proto n) (c : Nat) (i : Fin 64) (j : Fin n)
      (locked : p.lock = some a) (holder : p.hist.holder i = some c) (leaving : p.leaving a c)
      (reader : i ∈ p.mask j) (settled : p.settled a) :
      Step G cap a p
        { p with
          mask := Function.update p.mask j ((p.mask j).erase i)
          hist := p.hist.change a j }
  | deregister (a : Actor) (p : Proto n) (c : Nat) (i : Fin 64) (locked : p.lock = some a)
      (holder : p.hist.holder i = some c) (leaving : p.leaving a c) (clear : ∀ j, i ∉ p.mask j)
      (idle : ∀ t, a = .writer t → p.hist.reservation t = none) (counted : p.counted a) :
      Step G cap a p { p with hist := p.hist.deregister a i }
  -- deliveries
  | beginTry (c : Nat) (p : Proto n) :
      Step G cap (.consumer c) p { p with hist := p.hist.beginTry c }
  | endTry (c : Nat) (p : Proto n) (result : Option (TensorMeta n))
      (answer : G.answer p c result) :
      Step G cap (.consumer c) p { p with hist := p.hist.endTry c result }
  | validate (c : Nat) (p : Proto n) (k : Registration) (m : TensorMeta n)
      (client : p.client c k) (offers : ¬G.careless → p.Offers k m) :
      Step G cap (.consumer c) p { p with hist := p.hist.validate c m (p.payload m.slotIndex) }
  | take (c : Nat) (p : Proto n) (k : Registration) (m : TensorMeta n) (client : p.client c k)
      (grants : ¬G.careless → p.Grants G c k m) :
      Step G cap (.consumer c) p
        { p with
          leases := Function.update p.leases c (m :: p.leases c)
          hist := p.hist.hand c m }
  | release (c : Nat) (p : Proto n) (k : Registration) (m : TensorMeta n) (client : p.client c k)
      (held : m ∈ p.leases c) (reader : k.index ∈ p.mask m.slotIndex)
      (settled : p.settled (.consumer c)) :
      Step G cap (.consumer c) p
        { p with
          mask := Function.update p.mask m.slotIndex ((p.mask m.slotIndex).erase k.index)
          leases := Function.update p.leases c ((p.leases c).erase m)
          hist := p.hist.change (.consumer c) m.slotIndex }
  | dropLease (c : Nat) (p : Proto n) (k : Registration) (m : TensorMeta n)
      (client : p.client c k) (held : m ∈ p.leases c) (loose : G.loose k) :
      Step G cap (.consumer c) p
        { p with
          leases := Function.update p.leases c ((p.leases c).erase m)
          hist := p.hist.violate c }
  | settle (a : Actor) (p : Proto n) (j : Fin n) (own : p.hist.changing a = some j) :
      Step G cap a p { p with hist := p.hist.settle a j }
  -- a sweep
  | beginSweep (a : Actor) (p : Proto n) (alive : Actor → Bool) (locked : p.lock = some a)
      (exact' : ∀ b, alive b = true ↔ p.alive b) :
      Step G cap a p { p with hist := p.hist.beginSweep a alive }
  | endSweep (a : Actor) (p : Proto n) (locked : p.lock = some a) (counted : p.counted a) :
      Step G cap a p { p with hist := p.hist.endSweep a }
  | verdict (a : Actor) (p : Proto n) (v : Verdict n) (locked : p.lock = some a)
      (idle : ∀ t, a = .writer t → p.hist.reservation t = none) :
      Step G cap a p { p with hist := { p.hist with verdicts := v :: p.hist.verdicts } }
  | abandonMask (a : Actor) (p : Proto n) (j : Fin n) (locked : p.lock = some a)
      (gone : p.gone G (.slot j)) (settled : p.settled a) :
      Step G cap a p
        { p with
          mask := Function.update p.mask j ∅
          hist := p.hist.change a j }
  | abandon (a : Actor) (p : Proto n) (j : Fin n) (locked : p.lock = some a)
      (gone : p.gone G (.slot j)) (empty : p.mask j = ∅) :
      Step G cap a p
        { p with
          state := Function.update p.state j .free
          hist := p.hist.abandon j }

/-- Actors die, nothing else. -/
structure Fades (p p' : Proto n) : Prop where
  eq : p' = { p with alive := p'.alive }
  alive : ∀ a, p'.alive a → p.alive a

end TenzorBus
