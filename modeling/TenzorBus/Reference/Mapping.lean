import TenzorBus.Reference.Ring
import TenzorBus.Word.Bytes

/-!
# The mapping, byte by byte (`protocol.py`)

Where the words of a ring lie for the reference, how it reads them, and what `publish` writes.

* `Protocol` : the offsets, the layout arithmetic, the readers
* `ByteM` : computations that write to the mapping and may raise
* `Protocol.readSlot` : what `next` reads of a slot
* `ByteM.publishTo` : what `publish` does with the slot that it has selected
-/

namespace TenzorBus.Reference

/-! ## layout -/

namespace Protocol

def stateCommitted : Nat := 1
def stateWriting : Nat := 2

def gNextSeq : Nat := 24
def gPublishCount : Nat := 40

def sState : Nat := 4
def sSequence : Nat := 8
def sTimestampNs : Nat := 16
def sNbytes : Nat := 24
def sDtype : Nat := 32
def sNdim : Nat := 33
def sReaders : Nat := 34
def sFlags : Nat := 36
def sShape : Nat := 40
def sStrides : Nat := 72
def sProducerPid : Nat := 104

def alignUp (value : Nat) : Nat := (value + 64 - 1) / 64 * 64

def slotStride (slotCapacity : Nat) : Nat := alignUp (slotHeaderSize + slotCapacity)

def slotBase (slotIndex slotCapacity : Nat) : Nat :=
  globalHeaderSize + slotIndex * slotStride slotCapacity

def payloadBase (slotIndex slotCapacity : Nat) : Nat :=
  slotBase slotIndex slotCapacity + slotHeaderSize

/-! ## reading -/

/-- `read_u16`, `read_u32` and `read_u64`. -/
def readU16 (m : Image) (off : Nat) : Nat := m.load off 2

def readU32 (m : Image) (off : Nat) : Nat := m.load off 4

def readU64 (m : Image) (off : Nat) : Nat := m.load off 8

/-- `read_shape`. -/
def readShape (m : Image) (off ndim : Nat) : List Nat :=
  ((List.range maxNdim).map fun d => m.load (off + d * 4) 4).take ndim

/-- What `next` reads of a slot, and its state. -/
structure SlotView where
  state : Nat
  sequence : Nat
  timestampNs : Nat
  nbytes : Nat
  dtype : Option String
  shape : List Nat
  strides : List Nat
  readersRemaining : Nat
  payload : List UInt8
  deriving DecidableEq

def readSlot (m : Image) (slotIndex slotCapacity : Nat) : SlotView :=
  let base := slotBase slotIndex slotCapacity
  let ndim := (m (base + sNdim)).toNat
  let nbytes := readU64 m (base + sNbytes)
  { state := readU32 m (base + sState)
    sequence := readU64 m (base + sSequence)
    timestampNs := readU64 m (base + sTimestampNs)
    nbytes := nbytes
    dtype := codeToDtype (m (base + sDtype))
    shape := readShape m (base + sShape) ndim
    strides := readShape m (base + sStrides) ndim
    readersRemaining := readU16 m (base + sReaders)
    payload := m.slice (payloadBase slotIndex slotCapacity) nbytes }

/-- A slot read word by word. -/
theorem readSlot_eq {m : Image} {slotIndex slotCapacity : Nat} {v : SlotView} {ndim : Nat}
    {code : UInt8} (hstate : readU32 m (slotBase slotIndex slotCapacity + sState) = v.state)
    (hsequence : readU64 m (slotBase slotIndex slotCapacity + sSequence) = v.sequence)
    (hstamp : readU64 m (slotBase slotIndex slotCapacity + sTimestampNs) = v.timestampNs)
    (hnbytes : readU64 m (slotBase slotIndex slotCapacity + sNbytes) = v.nbytes)
    (hcode : m (slotBase slotIndex slotCapacity + sDtype) = code)
    (hdtype : codeToDtype code = v.dtype)
    (hndim : (m (slotBase slotIndex slotCapacity + sNdim)).toNat = ndim)
    (hshape : readShape m (slotBase slotIndex slotCapacity + sShape) ndim = v.shape)
    (hstrides : readShape m (slotBase slotIndex slotCapacity + sStrides) ndim = v.strides)
    (hreaders : readU16 m (slotBase slotIndex slotCapacity + sReaders) = v.readersRemaining)
    (hpayload : m.slice (payloadBase slotIndex slotCapacity) v.nbytes = v.payload) :
    readSlot m slotIndex slotCapacity = v := by
  simp only [readSlot]
  rw [hstate, hsequence, hstamp, hnbytes, hcode, hdtype, hndim, hshape, hstrides, hreaders,
    hpayload]

end Protocol

/-! ## writing -/

open Protocol

/-- Computations on the mapping. -/
abbrev ByteM := ExceptT Raise (StateM Image)

namespace ByteM

/-- What a computation gives, from the mapping `m`. -/
def exec {α : Type} (c : ByteM α) (m : Image) : Except Raise α × Image := (ExceptT.run c).run m

/-- Bytes are written. -/
def write (x : Write) : ByteM Unit := modify (·.write x)

/-- `struct.pack_into`: a value that does not fit raises, when the field has been zeroed already. -/
def packInto (off w : Nat) (v : Int) : ByteM Unit :=
  if 0 ≤ v ∧ v < 256 ^ w then write (.word off w v.toNat)
  else do
    write (.word off w 0)
    throw .struct

def writeU16 (off : Nat) (v : Int) : ByteM Unit := packInto off 2 v

def writeU32 (off : Nat) (v : Int) : ByteM Unit := packInto off 4 v

def writeU64 (off : Nat) (v : Int) : ByteM Unit := packInto off 8 v

/-- `write_shape`: one `struct.pack_into` of the values, padded by zeros. The whole field is zeroed,
and then one value after the other is written. -/
def writeShape (off : Nat) (values : List Int) : ByteM Unit := do
  (List.range maxNdim).forM fun d => write (.word (off + d * 4) 4 0)
  (List.range maxNdim).forM fun d => writeU32 (off + d * 4) (values.getD d 0)

/-- The writes of `publish` up to the commit. -/
def fill (call : Call) (slot slotCapacity : Nat) (arr : NdArray) (code : UInt8)
    (sequence consumers : Nat) : ByteM Unit := do
  let base := slotBase slot slotCapacity
  writeU32 (base + sState) stateWriting
  writeU64 (base + sSequence) sequence
  let stamp := call.timestampNs.getD call.timeNs
  writeU64 (base + sTimestampNs) stamp
  writeU64 (base + sNbytes) arr.nbytes
  write { off := base + sDtype, bytes := [code] }
  write { off := base + sNdim, bytes := [UInt8.ofNat arr.shape.length] }
  writeU16 (base + sReaders) consumers
  writeU32 (base + sFlags) 0
  writeShape (base + sShape) (arr.shape.map Int.ofNat)
  writeShape (base + sStrides) arr.strides
  writeU32 (base + sProducerPid) call.pid.toNat
  -- `memoryview(arr).cast("B")`
  if arr.casts = false then throw .type
  else
    write { off := payloadBase slot slotCapacity, bytes := arr.data }
    writeU32 (base + sState) stateCommitted

/-- The writes behind the commit. -/
def count (sequence : Nat) : ByteM Unit := do
  writeU64 gNextSeq (sequence + 1)
  let m ← get
  writeU64 gPublishCount (readU64 m gPublishCount + 1)

/-- What `publish` does with the slot that it has selected. -/
def publishTo (call : Call) (slot slotCapacity : Nat) (arr : NdArray) (code : UInt8)
    (sequence consumers : Nat) : ByteM Unit := do
  fill call slot slotCapacity arr code sequence consumers
  count sequence

end ByteM

end TenzorBus.Reference
