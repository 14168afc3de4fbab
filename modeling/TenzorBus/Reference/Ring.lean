import TenzorBus.Core
import Mathlib.Data.List.Sort
import Mathlib.Data.Prod.Lex

/-!
# The reference ring (`SharedTensorRing`, `TensorConsumer`)

The Python implementation: what it does inside its file lock, one critical section after the other.
An exception leaves the buffer as it is at that moment.

* `Buf` : the words of the mapping that the reference uses
* `PyM` : computations that change the buffer and may raise
* `SharedTensorRing.publish`, `TensorConsumer.init`, `next`, `release`, `close`
-/

namespace TenzorBus.Reference

/-! ## the buffer -/

/-- The mapping, of a ring with `n` slots. -/
structure Buf (n : Nat) where
  nextSeq : UInt64
  consumers : UInt32
  maxConsumers : UInt32
  publishCount : UInt64
  dropCount : UInt64
  slots : Fin n → Slot

/-- What `create` leaves. -/
def Buf.create (n : Nat) : Buf n :=
  { nextSeq := 1, consumers := 0, maxConsumers := 64, publishCount := 0, dropCount := 0,
    slots := fun _ => .zero }

def Buf.setSlot {n : Nat} (b : Buf n) (i : Fin n) (f : Slot → Slot) : Buf n :=
  { b with slots := Function.update b.slots i (f (b.slots i)) }

/-! ## computations -/

/-- The exceptions: `struct.error`, `TypeError`, `KeyError`, `ValueError`, `RingError`, `RingFull`
and `RingTimeout`. -/
inductive Raise
  | struct
  | type
  | key
  | value (m : String)
  | ring (m : String)
  | full
  | timeout
  deriving DecidableEq, Repr

/-- Computations on the buffer. -/
abbrev PyM (n : Nat) := ExceptT Raise (StateM (Buf n))

variable {n : Nat}

/-- `struct.pack_into`: a value that does not fit its field raises, when the field has been zeroed
already. -/
def pack (bits : Nat) (v : Int) (put : Nat → Buf n → Buf n) : PyM n Unit :=
  if 0 ≤ v ∧ v < 2 ^ bits then modify (put v.toNat)
  else do
    modify (put 0)
    throw .struct

/-- Write to slot `i`. -/
def writeSlot (i : Fin n) (f : Slot → Slot) : PyM n Unit := modify fun b => b.setSlot i f

/-- `write_u64`, `write_u32` and `write_u16` into a field of slot `i`. -/
def writeU64 (i : Fin n) (v : Int) (f : UInt64 → Slot → Slot) : PyM n Unit :=
  pack 64 v fun w b => b.setSlot i (f (UInt64.ofNat w))

def writeU32 (i : Fin n) (v : Int) (f : UInt32 → Slot → Slot) : PyM n Unit :=
  pack 32 v fun w b => b.setSlot i (f (UInt32.ofNat w))

def writeU16 (i : Fin n) (v : Int) (f : UInt16 → Slot → Slot) : PyM n Unit :=
  pack 16 v fun w b => b.setSlot i (f (UInt16.ofNat w))

/-- `write_u64` and `write_u32` into a field of the global header. -/
def writeGlobal64 (v : Int) (f : UInt64 → Buf n → Buf n) : PyM n Unit :=
  pack 64 v fun w => f (UInt64.ofNat w)

def writeGlobal32 (v : Int) (f : UInt32 → Buf n → Buf n) : PyM n Unit :=
  pack 32 v fun w => f (UInt32.ofNat w)

/-- `write_shape`: one `struct.pack_into` of the values, padded by zeros. The whole field is zeroed,
and then one value after the other is written. -/
def writeShape (i : Fin n) (values : List Int) (f : Fin maxNdim → UInt32 → Slot → Slot) :
    PyM n Unit := do
  (List.finRange maxNdim).forM fun d => writeSlot i (f d 0)
  (List.finRange maxNdim).forM fun d => writeU32 i (values.getD d 0) (f d)

/-! ## arrays -/

/-- A NumPy array: its bytes in C order, and whether `memoryview(arr).cast("B")` goes through, which
CPython decides. -/
structure NdArray where
  dtype : String
  itemsize : Nat
  shape : List Nat
  strides : List Int
  data : List UInt8
  casts : Bool
  strides_length : strides.length = shape.length
  data_length : data.length = itemsize * shape.prod

def NdArray.nbytes (a : NdArray) : Nat := a.data.length

/-- `np.ascontiguousarray`: the same elements in C order, with at least one dimension. What the
strides of dimensions without extent are is up to NumPy. A view in C order is cast if it has
elements, and is not if it has none and several dimensions. Nothing here depends on the other cases:
CPython casts an empty view of one dimension, and half floats in some versions. -/
structure NumPy where
  ascontiguousarray : NdArray → NdArray
  dtype : ∀ a, (ascontiguousarray a).dtype = a.dtype
  itemsize : ∀ a, (ascontiguousarray a).itemsize = a.itemsize
  shape : ∀ a, (ascontiguousarray a).shape = if a.shape = [] then [1] else a.shape
  data : ∀ a, (ascontiguousarray a).data = a.data
  casts : ∀ a, a.dtype ≠ "float16" → 0 ∉ (ascontiguousarray a).shape →
    (ascontiguousarray a).casts = true
  refuses : ∀ a, 0 ∈ (ascontiguousarray a).shape → 1 < (ascontiguousarray a).shape.length →
    (ascontiguousarray a).casts = false

/-- `DTYPE_TO_CODE`. -/
def dtypeToCode (dtype : String) : Option UInt8 :=
  [("float32", 1), ("float16", 2), ("uint8", 3), ("int8", 4), ("int16", 5), ("int32", 6),
    ("int64", 7), ("float64", 8), ("bool", 9)].lookup dtype

/-- `CODE_TO_DTYPE`. -/
def codeToDtype (code : UInt8) : Option String :=
  [(1, "float32"), (2, "float16"), (3, "uint8"), (4, "int8"), (5, "int16"), (6, "int32"),
    (7, "int64"), (8, "float64"), (9, "bool")].lookup code

/-! ## `SharedTensorRing` -/

structure PublishResult (n : Nat) where
  sequence : Nat
  slotIndex : Fin n
  nbytes : Nat
  readers : Nat
  deriving DecidableEq

/-- What a call of `publish` finds out from the process and the clock. -/
structure Call where
  timestampNs : Option Int
  timeNs : Int
  pid : UInt32
  policy : String

namespace SharedTensorRing

/-- The slots that nobody reads any more, oldest first. -/
def reclaimable (b : Buf n) : List (Nat ×ₗ Fin n) :=
  ((List.finRange n).filterMap fun i =>
    if (b.slots i).state = .committed ∧ (b.slots i).readersRemaining = 0 then
      some (toLex ((b.slots i).sequence.toNat, i))
    else none).insertionSort (· ≤ ·)

/-- `_select_slot`. -/
def selectSlot (b : Buf n) : Option (Fin n) :=
  match (List.finRange n).filter fun i => (b.slots i).state = .free with
  | i :: _ => some i
  | [] => (reclaimable b).head?.map fun x => (ofLex x).2

/-- The writes of `publish` up to the payload. -/
def fill (call : Call) (slot : Fin n) (arr : NdArray) (code : UInt8) (sequence : UInt64)
    (consumers : UInt32) : PyM n Unit := do
  writeSlot slot fun s => { s with state := .writing }
  writeU64 slot sequence.toNat fun v s => { s with sequence := v }
  let stamp := call.timestampNs.getD call.timeNs
  writeU64 slot stamp fun v s => { s with header.timestampNs := v }
  writeU64 slot arr.nbytes fun v s => { s with header.nbytes := v }
  writeSlot slot fun s => { s with header.dtype := code }
  writeSlot slot fun s => { s with header.ndim := UInt8.ofNat arr.shape.length }
  writeU16 slot consumers.toNat fun v s => { s with readersRemaining := v }
  writeU32 slot 0 fun v s => { s with header.flags := v }
  writeShape slot (arr.shape.map Int.ofNat) fun d v s =>
    { s with header.shape := Function.update s.header.shape d v }
  writeShape slot arr.strides fun d v s =>
    { s with header.strides := Function.update s.header.strides d v }
  writeSlot slot fun s => { s with producerPid := call.pid }
  -- `memoryview(arr).cast("B")`
  if arr.casts = false then throw .type
  writeSlot slot fun s =>
    { s with payload := fun off => arr.data.getD off (s.payload off) }

/-- What `publish` does inside the lock: the result of the call, or `none` if it goes on waiting. -/
def tryPublish (call : Call) (arr : NdArray) (code : UInt8) :
    PyM n (Option (Option (PublishResult n))) := do
  let b ← get
  match selectSlot b with
  | some slot =>
    fill call slot arr code b.nextSeq b.consumers
    writeSlot slot fun s => { s with state := .committed }
    writeGlobal64 (b.nextSeq.toNat + 1) fun v b => { b with nextSeq := v }
    writeGlobal64 (b.publishCount.toNat + 1) fun v b => { b with publishCount := v }
    return some (some { sequence := b.nextSeq.toNat, slotIndex := slot, nbytes := arr.nbytes,
                        readers := b.consumers.toNat })
  | none =>
    if call.policy = "drop_newest" then
      writeGlobal64 (b.dropCount.toNat + 1) fun v b => { b with dropCount := v }
      return some none
    if call.policy ≠ "block" then
      throw (.value "policy must be 'block' or 'drop_newest'")
    return none

/-- The loop of `publish`: it goes round as long as there is time left. -/
def publishLoop (call : Call) (arr : NdArray) (code : UInt8) :
    Nat → PyM n (Option (PublishResult n))
  | 0 => do
    match ← tryPublish call arr code with
    | some result => return result
    | none => throw .full
  | rounds + 1 => do
    match ← tryPublish call arr code with
    | some result => return result
    | none => publishLoop call arr code rounds

/-- `publish`, where the deadline is reached after so many rounds. -/
def publish (np : NumPy) (slotCapacity : Nat) (call : Call) (array : NdArray) (rounds : Nat) :
    PyM n (Option (PublishResult n)) := do
  if maxNdim < array.shape.length then
    throw (.value s!"ndim {array.shape.length} exceeds protocol max {maxNdim}")
  match dtypeToCode array.dtype with
  | none => throw (.value s!"unsupported dtype {array.dtype}")
  | some code =>
    let arr := np.ascontiguousarray array
    if slotCapacity < arr.nbytes then
      throw (.value s!"tensor requires {arr.nbytes} bytes; slot capacity is {slotCapacity}")
    publishLoop call arr code rounds

end SharedTensorRing

/-! ## `TensorConsumer` -/

structure TensorMeta (n : Nat) where
  sequence : Nat
  timestampNs : Nat
  nbytes : Nat
  dtype : String
  shape : List Nat
  strides : List Nat
  slotIndex : Fin n
  readersRemaining : Nat
  deriving DecidableEq

/-- What a round of `next` finds: a lease, a publication to be skipped, or nothing. -/
inductive Look (n : Nat)
  | lease (m : TensorMeta n)
  | skip (seq : Nat)
  | nothing

/-- `read_shape`. -/
def readShape (dims : Fin maxNdim → UInt32) (ndim : Nat) : List Nat :=
  ((List.finRange maxNdim).map fun d => (dims d).toNat).take ndim

namespace TensorConsumer

/-- `TensorConsumer.__init__`: what `last_sequence` is set to. -/
def init : PyM n Int := do
  let b ← get
  if b.maxConsumers ≤ b.consumers then throw (.ring "maximum consumer count reached")
  writeGlobal32 (b.consumers.toNat + 1) fun v b => { b with consumers := v }
  return b.nextSeq.toNat - 1

/-- The committed slots that are newer than `last_sequence`. -/
def candidates (b : Buf n) (last : Int) : List (Nat ×ₗ Fin n) :=
  (List.finRange n).filterMap fun i =>
    if (b.slots i).state = .committed ∧ last < (b.slots i).sequence.toNat then
      some (toLex ((b.slots i).sequence.toNat, i))
    else none

/-- What a round of `next` does inside the lock. -/
def look (last : Int) : PyM n (Look n) := do
  let b ← get
  match (candidates b last).min? with
  | none => return .nothing
  | some x =>
    let s := b.slots (ofLex x).2
    if s.readersRemaining = 0 then return .skip (ofLex x).1
    match codeToDtype s.header.dtype with
    | none => throw .key
    | some dtype =>
      return .lease
        { sequence := (ofLex x).1, timestampNs := s.header.timestampNs.toNat,
          nbytes := s.header.nbytes.toNat, dtype := dtype,
          shape := readShape s.header.shape s.header.ndim.toNat,
          strides := readShape s.header.strides s.header.ndim.toNat,
          slotIndex := (ofLex x).2, readersRemaining := s.readersRemaining.toNat }

/-- `_release`. -/
def release (m : TensorMeta n) : PyM n Unit := do
  let b ← get
  if (b.slots m.slotIndex).sequence.toNat ≠ m.sequence then
    throw (.ring "slot was overwritten before consumer released it")
  let readers := (b.slots m.slotIndex).readersRemaining
  if readers = 0 then throw (.ring "lease released more than once")
  writeU16 m.slotIndex (readers.toNat - 1) fun v s => { s with readersRemaining := v }

/-- `close` of a consumer that is open. -/
def close : PyM n Unit := do
  let b ← get
  writeGlobal32 (max 0 ((b.consumers.toNat : Int) - 1)) fun v b => { b with consumers := v }

end TensorConsumer

end TenzorBus.Reference
