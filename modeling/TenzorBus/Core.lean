import TenzorBus.Word.Bits
import TenzorBus.Word.Serial

/-!
# The wire layout (`tenzor-core`)

Constants, dtypes, the words of a slot header and of a registry entry, the layout arithmetic and
the sequence comparison.

Sizes and offsets (`usize`) are natural numbers here: a geometry that is in use fits the address
space (`RingLayout`), so none of the sums wraps.
-/

namespace TenzorBus

open Bits

def maxNdim : Nat := 8
def globalHeaderSize : Nat := 4096
def slotHeaderSize : Nat := 128

/-- Hard ceiling on simultaneously registered consumers: the width of the reader bitmask. -/
def maxConsumers : Nat := 64

/-- `STATE_FREE`, `STATE_COMMITTED`, `STATE_WRITING`. -/
inductive SlotState
  | free
  | committed
  | writing
  deriving DecidableEq, Repr

/-- `REGISTRY_FREE`, `REGISTRY_ACTIVE`. -/
inductive RegistryState
  | free
  | active
  deriving DecidableEq, Repr

/-! ## dtypes -/

inductive DType
  | f32 | f16 | u8 | i8 | i16 | i32 | i64 | f64 | bool
  deriving DecidableEq, Repr

def DType.code : DType → UInt8
  | .f32 => 1 | .f16 => 2 | .u8 => 3 | .i8 => 4 | .i16 => 5 | .i32 => 6 | .i64 => 7 | .f64 => 8
  | .bool => 9

def DType.fromCode (code : UInt8) : Option DType :=
  match code with
  | 1 => some .f32 | 2 => some .f16 | 3 => some .u8 | 4 => some .i8 | 5 => some .i16
  | 6 => some .i32 | 7 => some .i64 | 8 => some .f64 | 9 => some .bool
  | _ => none

def DType.itemsize : DType → Nat
  | .f32 => 4 | .f16 => 2 | .u8 => 1 | .i8 => 1 | .i16 => 2 | .i32 => 4 | .i64 => 8 | .f64 => 8
  | .bool => 1

/-- NumPy dtype spelling, as the Python reference writes it. -/
def DType.numpyName : DType → String
  | .f32 => "float32" | .f16 => "float16" | .u8 => "uint8" | .i8 => "int8" | .i16 => "int16"
  | .i32 => "int32" | .i64 => "int64" | .f64 => "float64" | .bool => "bool"

@[simp] theorem DType.fromCode_code (d : DType) : DType.fromCode d.code = some d := by
  cases d <;> rfl

/-! ## the words of a slot and of a registry entry -/

/-- The words of a slot header that describe the tensor. -/
structure TensorHeader where
  timestampNs : UInt64
  nbytes : UInt64
  dtype : UInt8
  ndim : UInt8
  flags : UInt32
  shape : Fin maxNdim → UInt32
  strides : Fin maxNdim → UInt32

/-- A slot: the words of `TensorSlotHeader` and the payload behind it. -/
structure Slot where
  state : SlotState
  sequence : UInt64
  header : TensorHeader
  readersRemaining : UInt16
  producerPid : UInt32
  readersMask : UInt64
  producerStartToken : UInt32
  payload : Nat → UInt8

/-- `ConsumerEntry`, one registration. -/
structure ConsumerEntry where
  state : RegistryState
  pid : UInt32
  generation : UInt32
  flags : UInt32
  heartbeatNs : UInt64
  lastSequence : UInt64

def TensorHeader.zero : TensorHeader :=
  { timestampNs := 0, nbytes := 0, dtype := 0, ndim := 0, flags := 0, shape := fun _ => 0,
    strides := fun _ => 0 }

/-- A slot as `format` leaves it: all zero, free. -/
def Slot.zero : Slot :=
  { state := .free, sequence := 0, header := .zero, readersRemaining := 0, producerPid := 0,
    readersMask := 0, producerStartToken := 0, payload := fun _ => 0 }

def ConsumerEntry.zero : ConsumerEntry :=
  { state := .free, pid := 0, generation := 0, flags := 0, heartbeatNs := 0, lastSequence := 0 }

/-! ## layout arithmetic -/

def alignUp (value alignment : Nat) : Nat := (value + alignment - 1) / alignment * alignment

def slotStride (slotCapacity : Nat) : Nat := alignUp (slotHeaderSize + slotCapacity) 64

def totalBytes (slotCount slotCapacity : Nat) : Nat :=
  globalHeaderSize + slotCount * slotStride slotCapacity

theorem le_alignUp (v : Nat) {a : Nat} (ha : 0 < a) : v ≤ alignUp v a := by
  have := Nat.lt_div_mul_add (a := v + a - 1) ha
  unfold alignUp
  omega

/-- The geometry of a ring that is in use: what `RingLayout::new` accepts, in a mapping that fits
the 64-bit address space. -/
structure RingLayout where
  slotCount : Nat
  slotCapacity : Nat
  slotCount_ge : 2 ≤ slotCount
  slotCapacity_ge : 64 ≤ slotCapacity
  mapped : totalBytes slotCount slotCapacity < 2 ^ 64

/-- A slot takes at least 192 bytes, so an address space has far fewer slots than half the range
of the sequence counter. -/
theorem RingLayout.slotCount_lt (L : RingLayout) : L.slotCount < 2 ^ 57 := by
  have hcap := L.slotCapacity_ge
  have hstride : 192 ≤ slotStride L.slotCapacity := by
    have := le_alignUp (slotHeaderSize + L.slotCapacity) (a := 64) (by decide)
    unfold slotStride
    unfold slotHeaderSize at *
    omega
  have hm := L.mapped
  have := Nat.mul_le_mul_left L.slotCount hstride
  unfold totalBytes at hm
  omega

theorem RingLayout.slotCapacity_lt (L : RingLayout) : L.slotCapacity < 2 ^ 64 := by
  have hle := le_alignUp (slotHeaderSize + L.slotCapacity) (a := 64) (by decide)
  have hcount := L.slotCount_ge
  have hm := L.mapped
  have := Nat.mul_le_mul_right (slotStride L.slotCapacity) hcount
  unfold totalBytes at hm
  unfold slotStride at *
  omega

/-! ## sequence numbers -/

/-- Sequence comparison that stays correct across a `u64` wraparound: `a` is newer than `b`. -/
def seqNewer (a b : UInt64) : Bool := 0 < (a - b).toInt64.toInt

theorem seqNewer_eq (a b : UInt64) : seqNewer a b = Serial.newer a.toBitVec b.toBitVec := rfl

/-- The word that holds number `n` of the unbounded counter. -/
def seqWord (n : Int) : UInt64 := ⟨BitVec.ofInt 64 n⟩

@[simp] theorem seqWord_toBitVec (n : Int) : (seqWord n).toBitVec = BitVec.ofInt 64 n := rfl

theorem seqNewer_seqWord {a b : Int} (hlo : b - a ≤ 2 ^ 63) (hhi : a - b < 2 ^ 63) :
    seqNewer (seqWord a) (seqWord b) = true ↔ b < a := by
  rw [seqNewer_eq]
  exact Serial.newer_ofInt_iff (by omega) (by omega)

/-- What is newer is later, unless it is far behind. -/
theorem lt_of_seqNewer {a b : Int} (h : seqNewer (seqWord a) (seqWord b) = true)
    (hlo : b - a ≤ 2 ^ 63) : b < a := by
  by_contra hba
  exact hba ((seqNewer_seqWord hlo (by omega)).mp h)

@[simp] theorem seqNewer_self (a : UInt64) : seqNewer a a = false := Serial.not_newer_self _

theorem seqWord_inj {a b : Int} (h : seqWord a = seqWord b) (hab : a - b < 2 ^ 64)
    (hba : b - a < 2 ^ 64) : a = b :=
  Serial.ofInt_inj_of_window (congrArg UInt64.toBitVec h) (by omega) (by omega)

theorem seqWord_add_one (n : Int) : seqWord n + 1 = seqWord (n + 1) := by
  apply UInt64.toBitVec_inj.mp
  simp [BitVec.ofInt_add]

theorem seqWord_sub_one (n : Int) : seqWord n - 1 = seqWord (n - 1) := by
  have h := seqWord_add_one (n - 1)
  rw [sub_add_cancel] at h
  rw [← h, UInt64.add_sub_cancel]

theorem seqWord_toNat (k : UInt64) : seqWord k.toNat = k := by
  apply UInt64.toBitVec_inj.mp
  simp

/-! ## the reader bitmask -/

/-- The bit of registry entry `index`. -/
def bit (index : Fin 64) : UInt64 := 1 <<< UInt64.ofNat index

/-- The registry entries whose bit is set. -/
def readers (mask : UInt64) : Finset (Fin 64) := positions mask.toBitVec

def countOnes (mask : UInt64) : Nat := (List.finRange 64).countP fun i => mask.toBitVec.getLsbD i

theorem bit_toBitVec (i : Fin 64) : (bit i).toBitVec = BitVec.twoPow 64 i := by
  revert i; decide

@[simp] theorem readers_zero : readers 0 = ∅ := positions_zero

theorem readers_eq_empty {m : UInt64} : readers m = ∅ ↔ m = 0 := by
  unfold readers
  rw [positions_eq_empty, ← UInt64.toBitVec_inj]
  rfl

@[simp] theorem readers_clear (m : UInt64) (i : Fin 64) :
    readers (m &&& ~~~ bit i) = (readers m).erase i := by
  unfold readers
  rw [UInt64.toBitVec_and, UInt64.toBitVec_not, bit_toBitVec, positions_and_not_twoPow]

@[simp] theorem readers_set (m : UInt64) (i : Fin 64) :
    readers (m ||| bit i) = insert i (readers m) := by
  unfold readers
  rw [UInt64.toBitVec_or, bit_toBitVec, positions_or_twoPow]

theorem countOnes_eq (m : UInt64) : countOnes m = (readers m).card :=
  (card_positions m.toBitVec).symm

theorem and_bit_eq_zero {m : UInt64} {i : Fin 64} : m &&& bit i = 0 ↔ i ∉ readers m := by
  unfold readers
  rw [← and_twoPow_eq_zero, ← bit_toBitVec, ← UInt64.toBitVec_and, ← UInt64.toBitVec_inj]
  rfl

end TenzorBus
