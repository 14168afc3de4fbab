import TenzorBus.Ring.Producer
import TenzorBus.Wire.Geometry
import TenzorBus.Word.Bytes

/-!
# The mapping, byte by byte (`tenzor-core`)

Where the words of a ring lie, what the transport stores there when it publishes, and what it reads
back.

* `TenzorCore` : the offsets
* `TensorSlotHeader` : the header of a slot, as it lies in memory
* `Bytes.publish` : `reserve_header`, the copy of the payload and the commit, as writes
-/

namespace TenzorBus

/-! ## offsets -/

namespace TenzorCore

def gNextSeq : Nat := 24
def gPublishCount : Nat := 40
def gPublishFutex : Nat := 56
def gRegistryOff : Nat := 128
def registryEntrySize : Nat := 32

def sMagic : Nat := 0
def sState : Nat := 4
def sSequence : Nat := 8
def sTimestampNs : Nat := 16
def sNbytes : Nat := 24
def sDtype : Nat := 32
def sNdim : Nat := 33
def sReaders : Nat := 34
def sFlags : Nat := 36
def sShape : Nat := 40
def sStrides : Nat := 72
def sProducerPid : Nat := 104
def sReadersMask : Nat := 112
def sProducerStartToken : Nat := 120

def stateCommitted : UInt32 := 1
def stateWriting : UInt32 := 2

/-- `slot_off`, in the `usize` arithmetic of a release build. -/
def slotOff (L : RingLayout) (index : Nat) : UInt64 :=
  4096 + UInt64.ofNat index * Usize.slotStride (UInt64.ofNat L.slotCapacity)

/-- `payload_off`. -/
def payloadOff (L : RingLayout) (index : Nat) : UInt64 := slotOff L index + 128

/-- `registry_entry_offset`. -/
def registryEntryOffset (index : Nat) : Nat := gRegistryOff + index * registryEntrySize

end TenzorCore

/-! ## words -/

namespace Image

def u16 (m : Image) (off : Nat) : UInt16 := UInt16.ofNat (m.load off 2)
def u32 (m : Image) (off : Nat) : UInt32 := UInt32.ofNat (m.load off 4)
def u64 (m : Image) (off : Nat) : UInt64 := UInt64.ofNat (m.load off 8)

end Image

namespace Write

def u16 (off : Nat) (v : UInt16) : Write := word off 2 v.toNat
def u32 (off : Nat) (v : UInt32) : Write := word off 4 v.toNat
def u64 (off : Nat) (v : UInt64) : Write := word off 8 v.toNat

end Write

open TenzorCore

/-- `TensorSlotHeader`. -/
structure TensorSlotHeader where
  magic : List UInt8
  state : UInt32
  sequence : UInt64
  timestampNs : UInt64
  nbytes : UInt64
  dtype : UInt8
  ndim : UInt8
  readersRemaining : UInt16
  flags : UInt32
  shape : Fin maxNdim → UInt32
  strides : Fin maxNdim → UInt32
  producerPid : UInt32
  readersMask : UInt64
  producerStartToken : UInt32

/-- Where fields of these sizes and alignments lie under `repr(C)`, the first of them at or behind
`off`, and where the last one ends. -/
def placeFields (off : Nat) : List (Nat × Nat) → List Nat × Nat
  | [] => ([], off)
  | (size, align) :: rest =>
    let start := alignUp off align
    let (offsets, stop) := placeFields (start + size) rest
    (start :: offsets, stop)

/-- The sizes and the alignments of the fields of `TensorSlotHeader`, with the padding. -/
def TensorSlotHeader.fields : List (Nat × Nat) :=
  [(4, 1), (4, 4), (8, 8), (8, 8), (8, 8), (1, 1), (1, 1), (2, 2), (4, 4), (4 * maxNdim, 4),
    (4 * maxNdim, 4), (4, 4), (4, 4), (8, 8), (4, 4), (4, 1)]

-- the assertions of the source: the fields lie at the offsets, and the header has its size
example : placeFields 0 TensorSlotHeader.fields =
    ([sMagic, sState, sSequence, sTimestampNs, sNbytes, sDtype, sNdim, sReaders, sFlags, sShape,
      sStrides, sProducerPid, sProducerPid + 4, sReadersMask, sProducerStartToken,
      sProducerStartToken + 4], slotHeaderSize) := by
  decide

/-- The header that lies at `off`. -/
def TensorSlotHeader.read (m : Image) (off : Nat) : TensorSlotHeader :=
  { magic := m.slice (off + sMagic) 4
    state := m.u32 (off + sState)
    sequence := m.u64 (off + sSequence)
    timestampNs := m.u64 (off + sTimestampNs)
    nbytes := m.u64 (off + sNbytes)
    dtype := m (off + sDtype)
    ndim := m (off + sNdim)
    readersRemaining := m.u16 (off + sReaders)
    flags := m.u32 (off + sFlags)
    shape := fun d => m.u32 (off + (sShape + d * 4))
    strides := fun d => m.u32 (off + (sStrides + d * 4))
    producerPid := m.u32 (off + sProducerPid)
    readersMask := m.u64 (off + sReadersMask)
    producerStartToken := m.u32 (off + sProducerStartToken) }

/-! ## publishing -/

/-- What a publication puts into a slot: the words of `reserve_header`, and the payload. -/
structure Parcel where
  producerPid : UInt32
  producerStartToken : UInt32
  sequence : UInt64
  timestampNs : UInt64
  dtype : DType
  shape : List UInt32
  strides : List UInt32
  strides_length : strides.length = shape.length
  rank : shape.length ≤ maxNdim
  data : List UInt8
  mask : UInt64

namespace Bytes

/-- The stores of `reserve_header` behind `STATE_WRITING`, relative to the slot. -/
def headerWords (x : Parcel) : List Write :=
  [.u32 sProducerPid x.producerPid, .u32 sProducerStartToken x.producerStartToken,
    .u64 sSequence x.sequence, .u64 sTimestampNs x.timestampNs,
    .u64 sNbytes (UInt64.ofNat x.data.length), { off := sDtype, bytes := [x.dtype.code] },
    { off := sNdim, bytes := [UInt8.ofNat x.shape.length] }, .u32 sFlags 0] ++
  (List.finRange maxNdim).flatMap (fun d =>
    [.u32 (sShape + d * 4) (padded x.shape d), .u32 (sStrides + d * 4) (padded x.strides d)]) ++
  [.u64 sReadersMask x.mask, .u16 sReaders (UInt16.ofNat (countOnes x.mask))]

/-- `reserve_header`, once the slot is chosen. -/
def reserveHeader (L : RingLayout) (slot : Nat) (x : Parcel) (m : Image) : Image :=
  let off := (slotOff L slot).toNat
  let m := m.write (.u32 (off + sState) stateWriting)
  let m := m.writes ((headerWords x).map (.shifted off))
  m.write (.u64 gNextSeq (x.sequence + 1))

/-- The copy of the payload. -/
def copyPayload (L : RingLayout) (slot : Nat) (x : Parcel) (m : Image) : Image :=
  m.write { off := (payloadOff L slot).toNat, bytes := x.data }

/-- The commit: the state, the number of publications, the futex. -/
def commit (L : RingLayout) (slot : Nat) (m : Image) : Image :=
  let m := m.write (.u32 ((slotOff L slot).toNat + sState) stateCommitted)
  let m := m.write (.u64 gPublishCount (m.u64 gPublishCount + 1))
  m.write (.u32 gPublishFutex (m.u32 gPublishFutex + 1))

/-- What a publication to this slot leaves in the mapping. -/
def publish (L : RingLayout) (slot : Nat) (x : Parcel) (m : Image) : Image :=
  commit L slot (copyPayload L slot x (reserveHeader L slot x m))

end Bytes

end TenzorBus
