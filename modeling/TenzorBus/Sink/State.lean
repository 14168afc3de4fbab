import TenzorBus.Paths.Agreement
import TenzorBus.Word.Bytes

/-!
# The ingest sink (`impl EpochSink for BusSink`)

The bridge offers the decoder a reserved slot to write an epoch's tensor into, and publishes it when
the epoch is ready.

* `BusSink` : the sink
* `videoDestination`, `epochReady`, `abortEpoch` : the calls of the engine
* `serve` : one call after the other
-/

namespace TenzorBus

open Conc

variable {P : Platform} {n : Nat} {L : RingLayout}

/-- `impl Display for Error`. -/
def Error.display : Error → String
  | .ringFull => "no reclaimable slot before timeout"
  | .timeout => "no tensor published before timeout"
  | .capacity m => s!"capacity: {m}"
  | .invalid m => s!"invalid argument: {m}"
  | .leaseViolation m => s!"lease violation: {m}"

/-- How a call of the sink fails: with an error, or with a panic that unwinds. -/
inductive Failure
  | error (m : String)
  | panic
  deriving DecidableEq, Repr

/-- A slot writer that the sink keeps. `writer` names its reservation in the history. -/
structure Pending (n : Nat) where
  writer : Nat
  handle : SlotWriter n

structure BusSink (n : Nat) where
  shape : List UInt32
  len : Nat
  timeout : Nat
  direct : Bool
  /-- The slot reserved for the epoch currently being decoded. -/
  pending : Option (Pending n)
  published : UInt64
  destinationsTaken : UInt64
  copied : UInt64
  /-- (sequence, slot) for every publication. -/
  slotTrace : List (UInt64 × Fin n)
  corruptEpoch : Option Nat
  firstSequence : Option UInt64
  lastSequence : UInt64
  /-- How many reservations the sink has asked for: the name of the next one. -/
  reservations : Nat

namespace BusSink

def new (resolution : Nat) (direct : Bool) (timeout : Nat) (corruptEpoch : Option Nat) :
    BusSink n :=
  let r := UInt32.ofNat resolution
  { shape := [3, r, r], len := 3 * resolution * resolution % 2 ^ 64, timeout := timeout
    direct := direct, pending := none, published := 0, destinationsTaken := 0, copied := 0
    slotTrace := [], corruptEpoch := corruptEpoch, firstSequence := none, lastSequence := 0
    reservations := 0 }

def recordSlot (self : BusSink n) (sequence : UInt64) (slot : Fin n) : BusSink n :=
  { self with slotTrace := self.slotTrace ++ [(sequence, slot)] }

def record (self : BusSink n) (sequence : UInt64) : BusSink n :=
  { self with
    firstSequence := self.firstSequence.or (some sequence)
    lastSequence := sequence
    published := self.published + 1 }

/-- `pts.max(0) as u64 * 1_000_000`. -/
def mediaTime (pts : Int64) : UInt64 := (if pts < 0 then 0 else pts).toUInt64 * 1000000

/-- The bytes of floats, which are given by their bits. -/
def bytesOf (values : List UInt32) : List UInt8 := values.flatMap fun v => le 4 v.toNat

def noSlot : String := "ring had no reclaimable slot within the publish timeout"

/-- The assignment to `pending` drops a writer that is still there. -/
def dropPending (self : BusSink n) : RingM P n Unit :=
  match self.pending with
  | some w => w.handle.abort w.writer
  | none => pure ()

/-- `payload[0] += 1.0`, where `plusOne` is the addition on the bits of a float. -/
def perturb (plusOne : UInt32 → UInt32) (slot : Fin n) : RingM P n Unit := do
  let bits ← loadSlot slot fun s => ofLe ((List.range 4).map s.payload)
  Producer.copyPayload slot (le 4 (plusOne (UInt32.ofNat bits)).toNat)

/-- What is handed to the decoder: the slot, and how many floats it is to write. -/
abbrev Destination (n : Nat) := Option (Fin n × Nat)

def videoDestination (L : RingLayout) (self : BusSink L.slotCount) (_epoch : Nat) (pts : Int64)
    (len : Nat) :
    RingM P L.slotCount (Except Failure (Destination L.slotCount) × BusSink L.slotCount) := do
  if self.direct = false then return (.ok none, self)
  if len ≠ self.len then
    return (.error (.error s!"engine asked for {len} floats, ring slots hold {self.len}"), self)
  let reserved ← Producer.reserve L self.reservations .f32 self.shape .block self.timeout
  match reserved with
  | .error e =>
    return (.error (.error s!"reserve a TenzorBus slot: {e.display}"),
      { self with reservations := self.reservations + 1 })
  | .ok none =>
    return (.error (.error noSlot), { self with reservations := self.reservations + 1 })
  | .ok (some writer) =>
    writer.setTimestampNs (mediaTime pts)
    dropPending self
    return (.ok (some (writer.slot, writer.nbytes / 4)),
      { self with
        destinationsTaken := self.destinationsTaken + 1
        pending := some { writer := self.reservations, handle := writer }
        reservations := self.reservations + 1 })

/-- The slot that the decoder has filled is published. -/
def commitPending (self : BusSink n) (w : Pending n) :
    RingM P n (Except Failure Unit × BusSink n) := do
  let result ← w.handle.commit w.writer
  return (.ok (), (self.recordSlot result.sequence w.handle.slot).record result.sequence)

/-- The decoder wrote into the slot that the sink handed out. -/
def finishPending (plusOne : UInt32 → UInt32) (self : BusSink n) (w : Pending n) (epoch : Nat) :
    RingM P n (Except Failure Unit × BusSink n) :=
  if self.corruptEpoch = some epoch then
    if w.handle.nbytes / 4 = 0 then do
      -- the index is out of bounds, and unwinding drops the writer
      w.handle.abort w.writer
      return (.error .panic, self)
    else do
      perturb plusOne w.handle.slot
      commitPending self w
  else commitPending self w

/-- No destination was taken: the tensor has to be copied in. -/
def copyIn (L : RingLayout) (self : BusSink L.slotCount) (pts : Int64) (values : List UInt32) :
    RingM P L.slotCount (Except Failure Unit × BusSink L.slotCount) := do
  match TensorView.contiguous .f32 self.shape (bytesOf values) with
  | .error e => return (.error (.error s!"build a tensor view: {e.display}"), self)
  | .ok view =>
    let result ← Producer.publish L self.reservations (view.withTimestampNs (mediaTime pts)) .block
      self.timeout
    let self := { self with reservations := self.reservations + 1 }
    match result with
    | .error e => return (.error (.error s!"publish: {e.display}"), self)
    | .ok none => return (.error (.error noSlot), self)
    | .ok (some result) =>
      return (.ok (), ({ self with copied := self.copied + 1 }.recordSlot result.sequence
        result.slotIndex).record result.sequence)

def epochReady (L : RingLayout) (plusOne : UInt32 → UInt32) (self : BusSink L.slotCount)
    (epoch : Nat) (pts : Int64) (tensor : Option (List UInt32)) :
    RingM P L.slotCount (Except Failure Unit × BusSink L.slotCount) := do
  match self.pending, tensor with
  | some w, none => finishPending plusOne { self with pending := none } w epoch
  | none, some values => copyIn L self pts values
  | some w, some _ =>
    w.handle.abort w.writer
    return (.error (.error
      "engine supplied a tensor for an epoch whose destination it had taken"),
      { self with pending := none })
  | none, none =>
    return (.error (.error "engine reported an epoch with neither a tensor nor a destination"),
      self)

def abortEpoch (self : BusSink n) (_epoch : Nat) : RingM P n (BusSink n) := do
  dropPending self
  return { self with pending := none }

end BusSink

/-! ## calls -/

/-- A call of the engine. -/
inductive SinkCall
  | videoDestination (epoch : Nat) (pts : Int64) (len : Nat)
  | epochReady (epoch : Nat) (pts : Int64) (tensor : Option (List UInt32))
  | abortEpoch (epoch : Nat)

/-- What it returns. -/
inductive SinkReply (n : Nat)
  | destination (r : Except Failure (BusSink.Destination n))
  | ready (r : Except Failure Unit)
  | aborted

/-- A call, the sink that it found, and what it returned. -/
structure Served (n : Nat) where
  before : BusSink n
  call : SinkCall
  reply : SinkReply n

/-- An `epoch_ready` that has published. -/
def Served.succeeded (x : Served n) : Bool :=
  match x.reply with
  | .ready (.ok ()) => true
  | _ => false

/-- A `video_destination` that has got a slot while the sink still had one. -/
def Served.overlaps (x : Served n) : Bool :=
  match x.reply with
  | .destination (.ok (some _)) => x.before.pending.isSome
  | _ => false

def BusSink.call (L : RingLayout) (plusOne : UInt32 → UInt32) (self : BusSink L.slotCount) :
    SinkCall → RingM P L.slotCount (SinkReply L.slotCount × BusSink L.slotCount)
  | .videoDestination epoch pts len => do
    let r ← videoDestination L self epoch pts len
    return (.destination r.1, r.2)
  | .epochReady epoch pts tensor => do
    let r ← epochReady L plusOne self epoch pts tensor
    return (.ready r.1, r.2)
  | .abortEpoch epoch => do
    let self ← abortEpoch self epoch
    return (.aborted, self)

/-- One more call of those that the engine makes. -/
def BusSink.serveOne (L : RingLayout) (plusOne : UInt32 → UInt32)
    (x : BusSink L.slotCount × List (Served L.slotCount)) (call : SinkCall) :
    RingM P L.slotCount (BusSink L.slotCount × List (Served L.slotCount)) := do
  let r ← x.1.call L plusOne call
  return (r.2, x.2 ++ [{ before := x.1, call := call, reply := r.1 }])

/-- The calls that the engine makes, one after the other. -/
def BusSink.serve (L : RingLayout) (plusOne : UInt32 → UInt32) (self : BusSink L.slotCount)
    (calls : List SinkCall) :
    RingM P L.slotCount (BusSink L.slotCount × List (Served L.slotCount)) :=
  calls.foldlM (serveOne L plusOne) (self, [])

end TenzorBus
