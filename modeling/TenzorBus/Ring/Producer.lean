import TenzorBus.Ring.Registry

/-!
# The producer (`impl Producer`, `impl SlotWriter`)

`reserve_header`, the copy path `publish`, the direct path `reserve`, and what a slot writer does
with the slot in hand.
-/

namespace TenzorBus

open Conc

variable {P : Platform} {n : Nat}

/-! ## tensors to publish -/

/-- A borrowed tensor ready to publish. Ranks above `MAX_NDIM` cannot be built. -/
structure TensorView where
  dtype : DType
  ndim : Nat
  ndim_le : ndim ≤ maxNdim
  shape : Fin maxNdim → UInt32
  strides : Fin maxNdim → UInt32
  data : List UInt8
  timestampNs : Option UInt64

/-- `[0u32; MAX_NDIM]` with the front copied from `l`. -/
def padded (l : List UInt32) : Fin maxNdim → UInt32 := fun d => l.getD d 0

/-- The number of elements, in the `u64` arithmetic of a release build. -/
def elements (shape : List UInt32) : UInt64 := shape.foldl (fun acc d => acc * d.toUInt64) 1

/-- The bytes that a shape implies, in the `usize` arithmetic of a release build. -/
def impliedBytes (dtype : DType) (shape : List UInt32) : Nat :=
  (elements shape * UInt64.ofNat dtype.itemsize).toNat

/-- C-contiguous byte strides, from the last dimension to the first. -/
def contiguousStrides (dtype : DType) (shape : List UInt32) : List UInt32 :=
  (shape.foldr (fun d (acc, strides) => (acc * d.toUInt64, acc.toUInt32 :: strides))
    (UInt64.ofNat dtype.itemsize, [])).2

def TensorView.new (dtype : DType) (shape strides : List UInt32) (data : List UInt8) :
    Except Error TensorView :=
  if h : shape.length ≤ maxNdim then
    if strides.length ≠ shape.length then
      .error (.invalid "strides must match shape rank")
    else if impliedBytes dtype shape ≠ data.length then
      .error (.invalid
        s!"shape implies {impliedBytes dtype shape} bytes but buffer is {data.length} bytes")
    else
      .ok { dtype := dtype, ndim := shape.length, ndim_le := h, shape := padded shape,
            strides := padded strides, data := data, timestampNs := none }
  else
    .error (.invalid s!"ndim {shape.length} exceeds protocol max {maxNdim}")

def TensorView.contiguous (dtype : DType) (shape : List UInt32) (data : List UInt8) :
    Except Error TensorView :=
  TensorView.new dtype shape (contiguousStrides dtype shape) data

/-! ## what the history notes -/

/-- The publication of the words that are in a slot. -/
def Slot.publication (s : Slot) (slot : Fin n) (mask : UInt64) : Publication n :=
  { slot := slot, sequence := s.sequence, header := s.header, payload := s.payload, mask := mask }

/-- A slot becomes `STATE_WRITING` for writer `t`. -/
def Ghost.begin (g : Ghost n) (t : Nat) (slot : Fin n) (mask : UInt64) : Ghost n :=
  { g with
    reservation := Function.update g.reservation t
      (some { slot := slot, mask := mask, owners := g.holder, phase := .header })
    begun := g.begun + 1 }

/-- The reservation of writer `t` moves on. -/
def Ghost.proceed (g : Ghost n) (t : Nat) (phase : Phase) : Ghost n :=
  { g with
    reservation := Function.update g.reservation t
      ((g.reservation t).map fun r => { r with phase := phase }) }

/-- The slot gets the next number. -/
def Ghost.number (g : Ghost n) (t : Nat) (slot : Fin n) : Ghost n :=
  { g.proceed t .numbered with num := Function.update g.num slot g.next }

/-- The counter has been advanced; the slot is in hand. -/
def Ghost.advance (g : Ghost n) (t : Nat) : Ghost n :=
  { g.proceed t .inHand with next := g.next + 1 }

/-- The slot becomes `STATE_COMMITTED`. -/
def Ghost.commit (g : Ghost n) (t : Nat) (pub : Publication n) : Ghost n :=
  { g with
    reservation := Function.update g.reservation t none
    position := Function.update g.position pub.slot g.published.length
    published := g.published ++ [pub] }

/-- An abort ends, its number handed back or not. -/
def Ghost.forget (g : Ghost n) (t : Nat) (handedBack : Bool) : Ghost n :=
  { g with
    reservation := Function.update g.reservation t none
    next := if handedBack then g.next - 1 else g.next }

namespace Producer

/-- One round of the slot selection of `reserve_header`: the first free slot, and the oldest
committed one that nobody reads. -/
def selectSlot (found : Option (Fin n) × Option (UInt64 × Fin n)) (i : Fin n) :
    RingM P n (Option (Fin n) × Option (UInt64 × Fin n)) := do
  let state ← loadSlot i (·.state)
  match state with
  | .free => return (found.1.or (some i), found.2)
  | .committed =>
    let mask ← loadSlot i (·.readersMask)
    if mask = 0 then
      let seq ← loadSlot i (·.sequence)
      match found.2 with
      | some (best, _) =>
        if seqNewer best seq then return (found.1, some (seq, i)) else return found
      | none => return (found.1, some (seq, i))
    else
      return found
  | .writing => return found

/-- The slot that `reserve_header` takes: the first free one, or else the oldest one that can be
reclaimed. -/
def chooseSlot : RingM P n (Option (Fin n)) := do
  let found ← (List.finRange n).foldlM selectSlot (none, none)
  return found.1.or (found.2.map (·.2))

/-- `timestamp_ns.unwrap_or_else(shm::now_ns)`. -/
def timestampOrNow (timestampNs : Option UInt64) : RingM P n UInt64 :=
  match timestampNs with
  | some ts => return ts
  | none => nowNs

/-- Write dimension `d` of shape and strides. -/
def writeDim (slot : Fin n) (shape strides : Fin maxNdim → UInt32) (d : Fin maxNdim) :
    RingM P n Unit := do
  storeSlot slot fun s =>
    { s with header.shape := Function.update s.header.shape d (shape d) }
  storeSlot slot fun s =>
    { s with header.strides := Function.update s.header.strides d (strides d) }

/-- The stores of `reserve_header`, from `STATE_WRITING` to the advance of the counter. -/
def writeHeader (t : Nat) (slot : Fin n) (sequence mask : UInt64) (dtype : DType) (ndim : Nat)
    (shape strides : Fin maxNdim → UInt32) (nbytes : Nat) (timestampNs : Option UInt64) :
    RingM P n Unit := do
  storeSlotWith slot (fun s => { s with state := .writing }) fun _ g => g.begin t slot mask
  storeSlot slot fun s => { s with producerPid := P.me (.writer t) }
  let token ← pidStartToken (P.me (.writer t))
  storeSlot slot fun s => { s with producerStartToken := token }
  storeSlotWith slot (fun s => { s with sequence := sequence }) fun _ g => g.number t slot
  let stamp ← timestampOrNow timestampNs
  storeSlot slot fun s => { s with header.timestampNs := stamp }
  storeSlot slot fun s => { s with header.nbytes := UInt64.ofNat nbytes }
  storeSlot slot fun s => { s with header.dtype := dtype.code }
  storeSlot slot fun s => { s with header.ndim := UInt8.ofNat ndim }
  storeSlot slot fun s => { s with header.flags := 0 }
  (List.finRange maxNdim).forM (writeDim slot shape strides)
  storeSlotWith slot (fun s => { s with readersMask := mask }) fun _ g =>
    (g.proceed t .masked).change (.writer t) slot
  storeReaders (.writer t) slot (countOnes mask)
  Prog.modifyWith (fun s => { s with ring.nextSeq := sequence + 1 }) fun _ g => g.advance t

/-- Reserve a slot and write its header, leaving the slot in `STATE_WRITING` with this
publication's reader mask already set. Must be called with the registry lock held. -/
def reserveHeader (t : Nat) (dtype : DType) (ndim : Nat) (shape strides : Fin maxNdim → UInt32)
    (nbytes : Nat) (timestampNs : Option UInt64) :
    RingM P n (Option (Fin n × UInt64 × UInt64)) := do
  Ring.reapDead (.writer t)
  let chosen ← chooseSlot
  match chosen with
  | none => return none
  | some slot =>
    let sequence ← load (·.nextSeq)
    let mask ← Ring.activeMask
    writeHeader t slot sequence mask dtype ndim shape strides nbytes timestampNs
    return some (slot, sequence, mask)

/-- `reserve_header` inside the registry lock, as both paths call it. -/
def lockedReserve (t : Nat) (dtype : DType) (ndim : Nat) (shape strides : Fin maxNdim → UInt32)
    (nbytes : Nat) (timestampNs : Option UInt64) :
    RingM P n (Option (Fin n × UInt64 × UInt64)) := do
  lockRegistry (.writer t)
  let reserved ← reserveHeader t dtype ndim shape strides nbytes timestampNs
  unlockRegistry
  return reserved

/-- What both paths do when no slot is reclaimable: give up, or wait on the reclaim word. -/
def backOff {α : Type} (t : Nat) (policy : Backpressure) (deadline : Nat) :
    RingM P n (Option (Except Error (Option α))) := do
  if policy = .dropNewest then
    store fun r => { r with dropCount := r.dropCount + 1 }
    return some (.ok none)
  let time ← now
  if deadline ≤ time then return some (.error .ringFull)
  let observed ← load (·.reclaimFutex)
  futexWait (.writer t) .reclaim observed
  return none

/-- Write one byte of the payload. -/
def writeByte (slot : Fin n) (off : Nat) (b : UInt8) : RingM P n Unit :=
  storeSlot slot fun s => { s with payload := Function.update s.payload off b }

/-- `copy_nonoverlapping` into the payload, byte by byte. -/
def copyPayload (slot : Fin n) (data : List UInt8) : RingM P n Unit :=
  data.zipIdx.forM fun x => writeByte slot x.2 x.1

/-- The commit of both paths: the store that makes the slot visible, the count, the signal. -/
def commitSlot (t : Nat) (slot : Fin n) (mask : UInt64) : RingM P n Unit := do
  storeSlotWith slot (fun s => { s with state := .committed })
    fun s g => g.commit t ((s.ring.slots slot).publication slot mask)
  store fun r => { r with publishCount := r.publishCount + 1 }
  signal .publish

/-- `Producer::publish`, the copy path. -/
def publish (L : RingLayout) (t : Nat) (view : TensorView) (policy : Backpressure)
    (timeout : Nat) : RingM P L.slotCount (Except Error (Option (PublishResult L.slotCount))) := do
  if L.slotCapacity < view.data.length then
    return .error (.invalid
      s!"tensor requires {view.data.length} bytes; slot capacity is {L.slotCapacity}")
  let start ← now
  Prog.loop do
    let reserved ← lockedReserve t view.dtype view.ndim view.shape view.strides view.data.length
      view.timestampNs
    match reserved with
    | some (slot, sequence, mask) =>
      copyPayload slot view.data
      commitSlot t slot mask
      return some (.ok (some { sequence := sequence, slotIndex := slot,
                               nbytes := view.data.length, readers := countOnes mask }))
    | none => backOff t policy (start + timeout)

/-- `Producer::reserve`, the direct path: the writer ends up with the slot in hand. -/
def reserve (L : RingLayout) (t : Nat) (dtype : DType) (shape : List UInt32)
    (policy : Backpressure) (timeout : Nat) :
    RingM P L.slotCount (Except Error (Option (SlotWriter L.slotCount))) := do
  if maxNdim < shape.length then
    return .error (.invalid s!"ndim {shape.length} exceeds protocol max {maxNdim}")
  let nbytes := impliedBytes dtype shape
  if L.slotCapacity < nbytes then
    return .error (.invalid s!"tensor requires {nbytes} bytes; slot capacity is {L.slotCapacity}")
  let start ← now
  Prog.loop do
    let reserved ← lockedReserve t dtype shape.length (padded shape)
      (padded (contiguousStrides dtype shape)) nbytes none
    match reserved with
    | some (slot, sequence, mask) =>
      -- debug builds poison the payload
      if P.debugAssertions then copyPayload slot (List.replicate nbytes 0xA5)
      let w : SlotWriter L.slotCount :=
        { slot := slot, sequence := sequence, mask := mask, nbytes := nbytes }
      Prog.modify fun s => { s with writer := Function.update s.writer t (some w) }
      return some (.ok (some w))
    | none => backOff t policy (start + timeout)

end Producer

namespace SlotWriter

/-- The writer is moved into `commit`, `abort` or `drop`. -/
def consume (t : Nat) : RingM P n Unit :=
  Prog.modify fun s => { s with writer := Function.update s.writer t none }

def setTimestampNs (self : SlotWriter n) (timestampNs : UInt64) : RingM P n Unit :=
  storeSlot self.slot fun s => { s with header.timestampNs := timestampNs }

def commit (t : Nat) (self : SlotWriter n) : RingM P n (PublishResult n) := do
  consume t
  Producer.commitSlot t self.slot self.mask
  return { sequence := self.sequence, slotIndex := self.slot, nbytes := self.nbytes,
           readers := countOnes self.mask }

/-- Give the slot back without publishing, and the sequence number to the counter if it is still
the last one assigned. -/
def releaseSlot (t : Nat) (self : SlotWriter n) : RingM P n Unit := do
  lockRegistry (.writer t)
  storeSlotWith self.slot (fun s => { s with readersMask := 0 }) fun _ g =>
    (g.proceed t .aborting).change (.writer t) self.slot
  storeReaders (.writer t) self.slot 0
  storeSlotWith self.slot (fun s => { s with state := .free }) fun _ g => g.proceed t .returning
  let _ ← Prog.atomicWith
    (fun s => some (if s.ring.nextSeq = self.sequence + 1
      then (true, { s with ring.nextSeq := self.sequence }) else (false, s)))
    fun handedBack _ g => g.forget t handedBack
  unlockRegistry
  signal .reclaim

/-- `SlotWriter::abort`, and `drop` of a writer that has not committed. -/
def abort (t : Nat) (self : SlotWriter n) : RingM P n Unit := do
  consume t
  releaseSlot t self

end SlotWriter

end TenzorBus
