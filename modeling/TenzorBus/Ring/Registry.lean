import TenzorBus.Ring.State

/-!
# The consumer registry (`impl Ring`)

`active_mask`, `drop_consumer_bit`, `reap_dead`, `consumer` and `sweep`.
-/

namespace TenzorBus

open Conc

variable {P : Platform} {n : Nat}

/-! ## what the history notes -/

/-- What a registration notes when it takes registry entry `index`. -/
def Ghost.registrationNow (g : Ghost n) (index : Fin 64) : Registration :=
  { index := index, last := g.next - 1, closing := false, start := g.published.length,
    quiet := ∀ t, g.reservation t = none,
    during := fun v => ∃ t r, g.reservation t = some r ∧ r.phase ≠ .header ∧ g.num r.slot = v }

/-- A registry entry becomes active for consumer `c`. -/
def Ghost.register (g : Ghost n) (c : Nat) (index : Fin 64) : Ghost n :=
  { g with
    holder := Function.update g.holder index (some c)
    registration := Function.update g.registration c (some (g.registrationNow index))
    counting := some (.consumer c, true) }

/-- Actor `a` makes a registry entry free. -/
def Ghost.deregister (g : Ghost n) (a : Actor) (index : Fin 64) : Ghost n :=
  { g with
    holder := Function.update g.holder index none
    counting := some (a, false) }

/-- `G_CONSUMERS` is stored. -/
def Ghost.count (g : Ghost n) : Ghost n := { g with counting := none }

/-- The registration of consumer `c` is refused. -/
def Ghost.refuse (g : Ghost n) (c : Nat) : Ghost n := { g with refused := c :: g.refused }

/-- A sweep returns an abandoned slot. -/
def Ghost.abandon (g : Ghost n) (slot : Fin n) : Ghost n :=
  { g with reservation := fun t => (g.reservation t).filter fun r => decide (r.slot ≠ slot) }

/-- Actor `a` begins a sweep, among those who are `alive`. -/
def Ghost.beginSweep (g : Ghost n) (a : Actor) (alive : Actor → Bool) : Ghost n :=
  { g with
    sweeping := Function.update g.sweeping a (some { alive := alive, before := g.verdicts }) }

/-- It has been through all entries and slots. -/
def Ghost.endSweep (g : Ghost n) (a : Actor) : Ghost n :=
  { g with sweeping := Function.update g.sweeping a none }

namespace Ring

def activeMask : RingM P n UInt64 :=
  (List.finRange 64).foldlM (fun mask i => do
    let state ← loadEntry i (·.state)
    if state = .active then return mask ||| bit i else return mask) 0

/-- Clear one consumer's bit from one slot. -/
def dropBitAt (a : Actor) (index : Fin 64) (freedAny : Bool) (s : Fin n) : RingM P n Bool := do
  let previous ← fetchAndMask s (bit index) id fun previous g =>
    if previous &&& bit index ≠ 0 then g.change a s else g
  if previous &&& bit index ≠ 0 then
    let now := previous &&& ~~~bit index
    storeReaders a s (countOnes now)
    return freedAny || now == 0
  else
    return freedAny

/-- Clear one consumer's bit from every slot. Called under the registry lock on unregister and on
reap. -/
def dropConsumerBit (a : Actor) (index : Fin 64) : RingM P n Bool :=
  (List.finRange n).foldlM (dropBitAt a index) false

def storeConsumers (count : UInt32) : RingM P n Unit :=
  Prog.modifyWith (fun s => { s with ring.consumers := count }) fun _ g => g.count

/-- A registry entry becomes free, `G_CONSUMERS` goes down by one. -/
def freeEntry (a : Actor) (index : Fin 64) : RingM P n Unit := do
  Prog.modifyWith
    (fun s => { s with ring := s.ring.setEntry index fun e => { e with state := .free } })
    fun _ g => g.deregister a index
  let previous ← load (·.consumers)
  storeConsumers (if previous = 0 then 0 else previous - 1)

/-- The part of `reap_dead` for one registry entry. -/
def reapEntry (a : Actor) (freed : Bool) (i : Fin 64) : RingM P n Bool := do
  let state ← loadEntry i (·.state)
  if state ≠ .active then return freed
  let pid ← loadEntry i (·.pid)
  if pid = P.me a then return freed
  let alive ← pidAlive (.entry i) pid
  if alive then return freed
  let dropped ← dropConsumerBit a i
  storeEntry i fun e => { e with generation := e.generation + 1 }
  freeEntry a i
  store fun r => { r with reapedCount := r.reapedCount + 1 }
  store fun r => { r with registryEpoch := r.registryEpoch + 1 }
  return freed || dropped

/-- The part of `reap_dead` for one slot: a producer killed between `WRITING` and `COMMITTED`
leaves it pinned. -/
def reapSlot (a : Actor) (freed : Bool) (s : Fin n) : RingM P n Bool := do
  let state ← loadSlot s (·.state)
  if state ≠ .writing then return freed
  let pid ← loadSlot s (·.producerPid)
  let token ← loadSlot s (·.producerStartToken)
  if pid = P.me a then return freed
  let alive ← pidAliveWithToken (.slot s) pid token
  if alive then return freed
  storeSlotWith s (fun t => { t with readersMask := 0 }) fun _ g => g.change a s
  storeReaders a s 0
  storeSlotWith s (fun t => { t with state := .free }) fun _ g => g.abandon s
  return true

/-- Reclaim registry entries whose process is gone, and slots abandoned mid-write by a dead
producer. Must be called under the registry lock. -/
def reapDead (a : Actor) : RingM P n Unit := do
  Prog.record fun s g => g.beginSweep a fun b => P.alive s.os (P.proc b)
  let freed ← (List.finRange 64).foldlM (reapEntry a) false
  let freed ← (List.finRange n).foldlM (reapSlot a) freed
  Prog.record fun _ g => g.endSweep a
  if freed then signal .reclaim

/-- The first free registry entry. -/
def firstFree : List (Fin 64) → RingM P n (Option (Fin 64))
  | [] => return none
  | i :: rest => do
    let state ← loadEntry i (·.state)
    if state = .free then return some i else firstFree rest

/-- The part of `consumer` behind the choice of an entry. -/
def subscribe (a : Actor) (c : Nat) (index : Fin 64) : RingM P n Unit := do
  -- subscribe to future publications only
  let next ← load (·.nextSeq)
  let last := next - 1
  let generation ← Prog.atomic fun s => some ((s.ring.entries index).generation,
    { s with ring := s.ring.setEntry index fun e => { e with generation := e.generation + 1 } })
  storeEntry index fun e => { e with pid := P.me a }
  let token ← pidStartToken (P.me a)
  storeEntry index fun e => { e with flags := token }
  let stamp ← nowNs
  storeEntry index fun e => { e with heartbeatNs := stamp }
  storeEntry index fun e => { e with lastSequence := last }
  Prog.modifyWith
    (fun s => { s with ring := s.ring.setEntry index fun e => { e with state := .active } })
    fun _ g => g.register c index
  let count ← load (·.consumers)
  storeConsumers (count + 1)
  store fun r => { r with registryEpoch := r.registryEpoch + 1 }
  unlockRegistry
  Prog.modify fun s =>
    { s with
      consumer := Function.update s.consumer c
        (some { index := index, generation := generation + 1, lastSequence := last,
                closed := false }) }

/-- `Ring::consumer`: register consumer `c`. -/
def consumer (a : Actor) (c : Nat) : RingM P n (Except Error Unit) := do
  lockRegistry a
  reapDead a
  let chosen ← firstFree (List.finRange 64)
  match chosen with
  | none =>
    Prog.record fun _ g => g.refuse c
    unlockRegistry
    return .error (.capacity "maximum consumer count reached")
  | some index =>
    subscribe a c index
    return .ok ()

/-- `Ring::sweep`: force a liveness sweep. -/
def sweep (a : Actor) : RingM P n Unit := do
  lockRegistry a
  reapDead a
  unlockRegistry

end Ring

end TenzorBus
