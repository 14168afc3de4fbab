import TenzorBus.Ring.Registry

/-!
# The consumer (`impl Consumer`)

The scan for the oldest publication, the validated read of a slot header, taking and releasing
leases, and `close`.
-/

namespace TenzorBus

open Conc

variable {P : Platform} {n : Nat}

/-! ## what the history notes -/

/-- A `try_take` of consumer `c` begins. -/
def Ghost.beginTry (g : Ghost n) (c : Nat) : Ghost n :=
  { g with trying := Function.update g.trying c g.published.length }

/-- It ends. -/
def Ghost.endTry (g : Ghost n) (c : Nat) (result : Option (TensorMeta n)) : Ghost n :=
  { g with
    tries := Function.update g.tries c (g.tries c ++
      [{ start := g.trying c, handed := (g.handed c).length, result := result }]) }

/-- `read_validated` returns a tensor. -/
def Ghost.validate (g : Ghost n) (c : Nat) (m : TensorMeta n) (payload : Nat → UInt8) : Ghost n :=
  { g with
    validated := { consumer := c, tensor := m, payload := payload,
                   published := g.published.length } :: g.validated }

/-- Consumer `c` is handed a publication. -/
def Ghost.hand (g : Ghost n) (c : Nat) (m : TensorMeta n) : Ghost n :=
  { g with
    registration := Function.update g.registration c
      ((g.registration c).map fun k => { k with last := g.num m.slotIndex })
    handed := Function.update g.handed c (g.handed c ++ [m])
    taken := Function.update g.taken c (g.taken c ++ [g.num m.slotIndex]) }

/-- Consumer `c` is told that its lease was violated. -/
def Ghost.violate (g : Ghost n) (c : Nat) : Ghost n := { g with violations := c :: g.violations }

/-- `close` is called. -/
def Ghost.closing (g : Ghost n) (c : Nat) : Ghost n :=
  { g with
    registration := Function.update g.registration c
      ((g.registration c).map fun k => { k with closing := true }) }

namespace Consumer

/-- `self.last_sequence.get()`. -/
def getLastSequence (c : Nat) : RingM P n UInt64 :=
  Prog.read fun s => (s.consumer c).elim 0 (·.lastSequence)

def heartbeat (self : Consumer) : RingM P n Unit := do
  let stamp ← nowNs
  storeEntry self.index fun e => { e with heartbeatNs := stamp }

/-- One slot of the pass. -/
def scanSlot (self : Consumer) (last : UInt64) (best : Option (UInt64 × Fin n)) (i : Fin n) :
    RingM P n (Option (UInt64 × Fin n)) := do
  let state ← loadSlot i (·.state)
  if state ≠ .committed then return best
  let mask ← loadSlot i (·.readersMask)
  if mask &&& bit self.index = 0 then return best
  let seq ← loadSlot i (·.sequence)
  -- the bit stays set until the lease is released: `last` is what makes delivery once-only
  if !seqNewer seq last then return best
  match best with
  | some (b, _) => if seqNewer b seq then return some (seq, i) else return best
  | none => return some (seq, i)

/-- One pass over the slots, returning the oldest publication addressed to this consumer that was
observed as committed during the pass. -/
def scanOldest (c : Nat) (self : Consumer) : RingM P n (Option (UInt64 × Fin n)) := do
  let last ← getLastSequence c
  (List.finRange n).foldlM (scanSlot self last) none

/-- The rescans of `try_take`: until a pass finds nothing older, at most `k` times. -/
def rescan (c : Nat) (self : Consumer) : Nat → UInt64 × Fin n → RingM P n (UInt64 × Fin n)
  | 0, best => return best
  | k + 1, best => do
    let found ← scanOldest c self
    match found with
    | some next => if seqNewer best.1 next.1 then rescan c self k next else return best
    | none => return best

/-- The two loads of one dimension. -/
def readDim (slot : Fin n) (dims : (Fin maxNdim → UInt32) × (Fin maxNdim → UInt32))
    (d : Fin maxNdim) : RingM P n ((Fin maxNdim → UInt32) × (Fin maxNdim → UInt32)) := do
  let extent ← loadSlot slot (·.header.shape d)
  let stride ← loadSlot slot (·.header.strides d)
  return (Function.update dims.1 d extent, Function.update dims.2 d stride)

/-- Read one slot's header as a consistent snapshot: everything is discarded unless the slot is
still committed, still carrying this sequence, and still addressed to this consumer. -/
def readValidated (slotCapacity : Nat) (c : Nat) (self : Consumer) (slot : Fin n)
    (expected : UInt64) : RingM P n (Option (TensorMeta n)) := do
  let state ← loadSlot slot (·.state)
  if state ≠ .committed then return none
  let seq ← loadSlot slot (·.sequence)
  if seq ≠ expected then return none
  let ndim ← loadSlot slot (·.header.ndim)
  let dtypeCode ← loadSlot slot (·.header.dtype)
  let nbytes ← loadSlot slot (·.header.nbytes)
  let timestampNs ← loadSlot slot (·.header.timestampNs)
  let dims ← (List.finRange maxNdim).foldlM (readDim slot) (fun _ => 0, fun _ => 0)
  let mask ← loadSlot slot (·.readersMask)
  let state ← loadSlot slot (·.state)
  if state ≠ .committed then return none
  let seq ← loadSlot slot (·.sequence)
  if seq ≠ expected then return none
  if mask &&& bit self.index = 0 then return none
  let again ← loadSlot slot (·.readersMask)
  if again &&& bit self.index = 0 then return none
  if maxNdim < ndim.toNat || slotCapacity < nbytes.toNat then return none
  match DType.fromCode dtypeCode with
  | none => return none
  | some dtype =>
    let m : TensorMeta n :=
      { sequence := expected, timestampNs := timestampNs, nbytes := nbytes.toNat, dtype := dtype,
        ndim := ndim.toNat, shape := dims.1, strides := dims.2, slotIndex := slot,
        readersRemaining := countOnes mask }
    Prog.record fun s g => g.validate c m (s.ring.slots slot).payload
    return some m

def tryTake (slotCapacity : Nat) (c : Nat) (self : Consumer) :
    RingM P n (Option (TensorMeta n)) := do
  Prog.record fun _ g => g.beginTry c
  let found ← scanOldest c self
  let result ← match found with
    | none => pure none
    | some first => do
      -- one pass is not a consistent snapshot: rescan until nothing older turns up
      let best ← rescan c self n first
      readValidated slotCapacity c self best.2 best.1
  Prog.record fun _ g => g.endTry c result
  return result

/-- `self.last_sequence.set(m.sequence)`; from here on the caller holds the lease. -/
def take (c : Nat) (m : TensorMeta n) : RingM P n Unit :=
  Prog.modifyWith
    (fun s =>
      { s with
        consumer := Function.update s.consumer c
          ((s.consumer c).map fun h => { h with lastSequence := m.sequence })
        leases := Function.update s.leases c (m :: s.leases c) })
    fun _ g => g.hand c m

def nextRaw (slotCapacity : Nat) (c : Nat) (self : Consumer) (timeout : Nat) :
    RingM P n (Except Error (TensorMeta n)) := do
  let start ← now
  Prog.loop do
    let observed ← load (·.publishFutex)
    let taken ← tryTake slotCapacity c self
    match taken with
    | some m =>
      take c m
      storeEntry self.index fun e => { e with lastSequence := m.sequence }
      heartbeat self
      return some (.ok m)
    | none =>
      let time ← now
      if start + timeout ≤ time then return some (.error .timeout)
      futexWait (.consumer c) .publish observed
      return none

/-- The lease `m` is gone. -/
def dropLease (c : Nat) (m : TensorMeta n) (s : State P n) : State P n :=
  { s with leases := Function.update s.leases c ((s.leases c).erase m) }

/-- `Consumer::release` of the lease `m`. The lease counts as held until its bit is cleared. -/
def release (c : Nat) (self : Consumer) (m : TensorMeta n) : RingM P n (Except Error Unit) := do
  let slot := m.slotIndex
  let seq ← loadSlot slot (·.sequence)
  if seq ≠ m.sequence then
    Prog.modifyWith (dropLease c m) fun _ g => g.violate c
    return .error (.leaseViolation
      s!"slot {slot.val} was recycled while sequence {m.sequence.toNat} was still leased")
  let previous ← fetchAndMask slot (bit self.index) (dropLease c m) fun previous g =>
    if previous &&& bit self.index = 0 then g.violate c else g.change (.consumer c) slot
  if previous &&& bit self.index = 0 then
    return .error (.leaseViolation "lease released more than once")
  let now := previous &&& ~~~bit self.index
  storeReaders (.consumer c) slot (countOnes now)
  heartbeat self
  if now = 0 then signal .reclaim
  return .ok ()

def close (c : Nat) (self : Consumer) : RingM P n Unit := do
  let closed ← Prog.atomicWith
    (fun s => some ((s.consumer c).elim true (·.closed),
      { s with
        consumer := Function.update s.consumer c
          ((s.consumer c).map fun h => { h with closed := true }) }))
    fun _ _ g => g.closing c
  if closed then return
  lockRegistry (.consumer c)
  let freed ← Ring.dropConsumerBit (.consumer c) self.index
  if freed then signal .reclaim
  Ring.freeEntry (.consumer c) self.index
  store fun r => { r with registryEpoch := r.registryEpoch + 1 }
  unlockRegistry

end Consumer

end TenzorBus
