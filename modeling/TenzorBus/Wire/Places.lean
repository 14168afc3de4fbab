import TenzorBus.Wire.Mapping
import TenzorBus.Reference.Mapping

/-!
# Where both sides find a slot

* `slotOff_toNat`, `payloadOff_toNat` : the transport and the reference find a slot, and its
  payload, at the same place
* `slot_apart` : words of a slot, its payload and words of the global header do not overlap
-/

namespace TenzorBus

open TenzorCore Reference

section

variable {L : RingLayout} {i j : Nat}

theorem slotStride_eq_protocol (c : Nat) : Protocol.slotStride c = slotStride c := rfl

/-- A slot ends before the next one begins. -/
theorem slot_room (L : RingLayout) :
    slotHeaderSize + L.slotCapacity ≤ Protocol.slotStride L.slotCapacity :=
  le_alignUp _ (by decide)

/-- Where both sides find a slot. -/
theorem slotOff_toNat (hi : i < L.slotCount) :
    (slotOff L i).toNat = Protocol.slotBase i L.slotCapacity := by
  have hm := L.mapped
  have hcount := L.slotCount_lt
  have hcap : (UInt64.ofNat L.slotCapacity).toNat = L.slotCapacity :=
    UInt64.toNat_ofNat_of_lt' L.slotCapacity_lt
  have hindex : (UInt64.ofNat i).toNat = i := UInt64.toNat_ofNat_of_lt' (by
    have : UInt64.size = 2 ^ 64 := rfl
    omega)
  have hmul := Nat.mul_le_mul_right (slotStride L.slotCapacity) hi
  rw [Nat.succ_mul] at hmul
  unfold totalBytes globalHeaderSize at hm
  have hstride : (Usize.slotStride (UInt64.ofNat L.slotCapacity)).toNat =
      slotStride L.slotCapacity := by
    rw [Usize.slotStride_toNat (by rw [hcap]; omega), hcap]
  have hprod : (UInt64.ofNat i * Usize.slotStride (UInt64.ofNat L.slotCapacity)).toNat =
      i * slotStride L.slotCapacity := by
    rw [UInt64.toNat_mul, hindex, hstride, Nat.mod_eq_of_lt (by omega)]
  unfold slotOff Protocol.slotBase globalHeaderSize
  rw [UInt64.toNat_add, hprod, slotStride_eq_protocol]
  show (4096 + i * slotStride L.slotCapacity) % 2 ^ 64 = _
  exact Nat.mod_eq_of_lt (by omega)

theorem payloadOff_toNat (hi : i < L.slotCount) :
    (payloadOff L i).toNat = Protocol.payloadBase i L.slotCapacity := by
  have hoff := slotOff_toNat hi
  have hroom := slot_room L
  have hm := L.mapped
  have hmul := Nat.mul_le_mul_right (slotStride L.slotCapacity) hi
  rw [Nat.succ_mul] at hmul
  unfold totalBytes at hm
  unfold payloadOff Protocol.payloadBase
  rw [UInt64.toNat_add, hoff]
  rw [slotStride_eq_protocol] at hroom
  unfold Protocol.slotBase
  rw [slotStride_eq_protocol, show (128 : UInt64).toNat = slotHeaderSize from rfl]
  exact Nat.mod_eq_of_lt (by omega)

/-- Slots follow one another. -/
theorem slotBase_lt (hij : i < j) :
    Protocol.slotBase i L.slotCapacity + Protocol.slotStride L.slotCapacity ≤
      Protocol.slotBase j L.slotCapacity := by
  have hmul := Nat.mul_le_mul_right (Protocol.slotStride L.slotCapacity) hij
  rw [Nat.succ_mul] at hmul
  unfold Protocol.slotBase
  omega

/-- The bytes of slot `j`. -/
def InSlot (L : RingLayout) (j a : Nat) : Prop :=
  Protocol.slotBase j L.slotCapacity ≤ a ∧
    a < Protocol.slotBase j L.slotCapacity + Protocol.slotStride L.slotCapacity

/-- The bytes of the registry table. -/
def InRegistry (a : Nat) : Prop :=
  registryEntryOffset 0 ≤ a ∧ a < registryEntryOffset maxConsumers

/-- The bytes of the other slots and of the registry table. -/
def Elsewhere (L : RingLayout) (slot a : Nat) : Prop := (∃ j ≠ slot, InSlot L j a) ∨ InRegistry a

/-- They lie outside the slot, and behind the words of the global header. -/
theorem Elsewhere.outside {a : Nat} (h : Elsewhere L i a) :
    (a < Protocol.slotBase i L.slotCapacity ∨
      Protocol.slotBase i L.slotCapacity + Protocol.slotStride L.slotCapacity ≤ a) ∧ 128 ≤ a := by
  have hbase : ∀ j, globalHeaderSize ≤ Protocol.slotBase j L.slotCapacity :=
    fun _ => Nat.le_add_right _ _
  rcases h with ⟨j, hne, hlow, hhigh⟩ | ⟨hlow, hhigh⟩
  · have hfirst := hbase j
    unfold globalHeaderSize at hfirst
    refine ⟨?_, by omega⟩
    rcases Nat.lt_or_gt_of_ne hne with hlt | hlt
    · have := slotBase_lt (L := L) hlt
      exact .inl (by omega)
    · have := slotBase_lt (L := L) hlt
      exact .inr (by omega)
  · have hfirst := hbase i
    have hend : registryEntryOffset maxConsumers ≤ globalHeaderSize := by decide
    exact ⟨.inl (by omega), hlow⟩

end

/-- Words of a slot header, a payload behind it, and words of the global header do not touch each
other. -/
theorem slot_apart {base : Nat} (hbase : globalHeaderSize ≤ base) {words globals : List Write}
    (hwords : words.Pairwise Write.Apart)
    (hin : ∀ w ∈ words, w.off + w.bytes.length ≤ slotHeaderSize)
    (hglobals : globals.Pairwise Write.Apart)
    (hlow : ∀ w ∈ globals, w.off + w.bytes.length ≤ globalHeaderSize) (data : List UInt8) :
    (words.map (Write.shifted base) ++ Write.mk (base + slotHeaderSize) data ::
      globals).Pairwise Write.Apart := by
  refine List.pairwise_append.mpr ⟨?_, List.pairwise_cons.mpr ⟨fun w hw => ?_, hglobals⟩, ?_⟩
  · exact List.pairwise_map.mpr (hwords.imp fun h => h.shifted base)
  · have := hlow w hw
    exact .inr (by simp only; omega)
  · intro u hu v hv
    obtain ⟨w, hw, rfl⟩ := List.mem_map.mp hu
    have := hin w hw
    rcases List.mem_cons.mp hv with rfl | hv
    · exact .inl (by simp only [Write.shifted]; omega)
    · have := hlow v hv
      exact .inr (by simp only [Write.shifted]; omega)

end TenzorBus
